import SpdkConnector.Context.Completion
import SpdkConnector.Interleaving.Gauge

/-!
# The DMA gauges

The metrics keep the bytes of the DMA pools that exist, of the buffers leased from them, and the highest of
the latter, each with atomic operations of its own. `Stock` is the part of the state they are about: the pools
and the three gauges. `Dealt` is what a step does to it, with the operations it makes.

| here | there (spdk_bdev_context.cpp) |
| --- | --- |
| `inUseOps` | :802 (a lease: `fetch_add`, the loop that raises the peak), :934 (`release_buffer`), :651 |
| `allocatedOps` | :466 (a pool is set up), :589 and :610 (a pool is released) |

The loop that raises the peak ends with the peak at or above what its `fetch_add` left: one `raise`.
-/

namespace SpdkConnector
namespace SpdkBdevContext

open Interleaving

variable {e : Env} {s s' s1 : Sys} {κ : Core} {w : Nat} {r : Ref}

/-- The pools, and the gauges about them. -/
structure Stock where
  pool : Nat → SpdkBufferPool
  /-- `dma_pool_allocated_bytes` of each worker. -/
  bytes : Nat → Nat
  allocated : Nat
  inUse : Nat
  peak : Nat

def stock (s : Sys) : Stock :=
  ⟨fun w => (s.reactor w).pool, fun w => (s.reactor w).dmaPoolAllocatedBytes, s.metrics.dmaBufferPoolAllocatedBytes,
    s.metrics.dmaBufferPoolInUseBytes, s.metrics.dmaBufferPoolPeakInUseBytes⟩

/-- The bytes counted for a worker's pool (:467). -/
def Env.poolBytes (e : Env) : Nat := mul64 e.geometry.ioSegmentSize e.geometry.spdkBufferCount

/-- `initialize` of worker `w`'s pool, where `spdk_dma_zmalloc` returns `obtained` buffers. -/
def fillPool (e : Env) (s : Sys) (w obtained : Nat) : Except Exn Unit × SpdkBufferPool :=
  (s.reactor w).pool.initializePool e.geometry.ioSegmentSize e.geometry.bufferAlignment e.geometry.spdkBufferCount
    fun i => if i < obtained then some i else none

/-- The operations of a step on `dma_buffer_pool_in_use_bytes_`, and on its peak. -/
def inUseOps (e : Env) (s : Sys) : Action → List (Nat × GaugeOp)
  | .reactor w (.submit submitResult _ _) =>
    match (s.reactor w).stack with
    | .io (.executeIo _) :: _ =>
      match (s.reactor w).pool.tryAcquire.1 with
      | .ok (some _) =>
        [(w, .add e.geometry.ioSegmentSize), (w, .raise)] ++
          if submitResult = 0 then [] else [(w, .sub e.geometry.ioSegmentSize)]
      | _ => []
    | _ => []
  | .reactor w .next =>
    match (s.reactor w).stack with
    | .io (.completeIo r _) :: _ =>
      match (s.request r).bufferIndex with
      | none => []
      | some index =>
        match ((s.reactor w).pool.release index).1 with
        | .ok _ => [(w, .sub e.geometry.ioSegmentSize)]
        | .error _ => []
    | .life .releaseDescriptor :: _ => [(w, .clear)]
    | _ => []
  | _ => []

/-- The `fetch_sub` of worker `v`'s bytes on SPDK thread `w`. -/
def freeOps (s : Sys) (w v : Nat) : List (Nat × GaugeOp) :=
  if (s.reactor v).dmaPoolAllocatedBytes ≠ 0 then [(w, .sub (s.reactor v).dmaPoolAllocatedBytes)] else []

/-- The operations of a step on `dma_buffer_pool_allocated_bytes_`. -/
def allocatedOps (e : Env) (s : Sys) : Action → List (Nat × GaugeOp)
  | .reactor w (.setUp onReactor channel obtained) =>
    match (s.reactor w).stack with
    | .life .initializeIoWorker :: _ =>
      if onReactor && channel then
        match (fillPool e s w obtained).1 with
        | .ok _ => [(w, .add e.poolBytes)]
        | .error _ => []
      else []
    | _ => []
  | .reactor w (.code rc) =>
    match (s.reactor w).stack with
    | .life (.postShutdown i) :: _ => if rc = 0 then [] else freeOps s w i
    | _ => []
  | .reactor w .next =>
    match (s.reactor w).stack with
    | .life .releaseIoWorker :: _ => freeOps s w w
    | _ => []
  | _ => []

namespace Stock

/-- A buffer is leased from worker `w`'s pool, which is then `pool`. -/
def lease (t : Stock) (e : Env) (w : Nat) (pool : SpdkBufferPool) : Stock :=
  { t with
    pool := Function.update t.pool w pool
    inUse := add64 t.inUse e.geometry.ioSegmentSize
    peak := max t.peak (add64 t.inUse e.geometry.ioSegmentSize) }

/-- A buffer is given back. -/
def giveBack (t : Stock) (e : Env) (w : Nat) (pool : SpdkBufferPool) : Stock :=
  { t with pool := Function.update t.pool w pool, inUse := sub64 t.inUse e.geometry.ioSegmentSize }

/-- Worker `w`'s pool is set up. -/
def fill (t : Stock) (e : Env) (w : Nat) (pool : SpdkBufferPool) : Stock :=
  { t with
    pool := Function.update t.pool w pool
    bytes := Function.update t.bytes w e.poolBytes
    allocated := add64 t.allocated e.poolBytes }

/-- Worker `v`'s pool is released. -/
def drop (t : Stock) (v : Nat) : Stock :=
  { t with
    pool := Function.update t.pool v {}
    bytes := Function.update t.bytes v 0
    allocated := if t.bytes v ≠ 0 then sub64 t.allocated (t.bytes v) else t.allocated }

end Stock

/-! ## What the functions do to the stock -/

@[simp] theorem stock_setRequest (s : Sys) (r : Ref) (q : IoRequest) : stock (s.setRequest r q) = stock s := rfl

@[simp] theorem stock_setBatch (s : Sys) (b : Nat) (x : IoBatchRequest) : stock (s.setBatch b x) = stock s := rfl

@[simp] theorem stock_notifyAll (s : Sys) : stock s.notifyAll = stock s := rfl

/-- One reactor changes. -/
theorem stock_update {x : Reactor} (hs : s'.reactor = Function.update s.reactor w x) :
    stock s' = ⟨Function.update (stock s).pool w x.pool, Function.update (stock s).bytes w x.dmaPoolAllocatedBytes,
      s'.metrics.dmaBufferPoolAllocatedBytes, s'.metrics.dmaBufferPoolInUseBytes,
      s'.metrics.dmaBufferPoolPeakInUseBytes⟩ := by
  have hpool : (fun v => (Function.update s.reactor w x v).pool) =
      Function.update (fun v => (s.reactor v).pool) w x.pool :=
    funext fun v => Function.apply_update (fun _ y => y.pool) s.reactor w x v
  have hbytes : (fun v => (Function.update s.reactor w x v).dmaPoolAllocatedBytes) =
      Function.update (fun v => (s.reactor v).dmaPoolAllocatedBytes) w x.dmaPoolAllocatedBytes :=
    funext fun v => Function.apply_update (fun _ y => y.dmaPoolAllocatedBytes) s.reactor w x v
  simp only [stock, hs, hpool, hbytes]

/-- One pool changes. -/
theorem stock_pool {x : Reactor} (hs : s'.reactor = Function.update s.reactor w x)
    (hb : x.dmaPoolAllocatedBytes = (s.reactor w).dmaPoolAllocatedBytes) :
    stock s' = ⟨Function.update (stock s).pool w x.pool, (stock s).bytes,
      s'.metrics.dmaBufferPoolAllocatedBytes, s'.metrics.dmaBufferPoolInUseBytes,
      s'.metrics.dmaBufferPoolPeakInUseBytes⟩ := by
  have hbytes : Function.update (stock s).bytes w (s.reactor w).dmaPoolAllocatedBytes = (stock s).bytes :=
    Function.update_eq_self _ _
  rw [stock_update hs, hb, hbytes]

/-- A change of a reactor that its pool has no part in. -/
theorem stock_beside {x : Reactor} (hs : s'.reactor = Function.update s.reactor w x)
    (hp : x.pool = (s.reactor w).pool) (hb : x.dmaPoolAllocatedBytes = (s.reactor w).dmaPoolAllocatedBytes)
    (h1 : s'.metrics.dmaBufferPoolAllocatedBytes = s.metrics.dmaBufferPoolAllocatedBytes)
    (h2 : s'.metrics.dmaBufferPoolInUseBytes = s.metrics.dmaBufferPoolInUseBytes)
    (h3 : s'.metrics.dmaBufferPoolPeakInUseBytes = s.metrics.dmaBufferPoolPeakInUseBytes) : stock s' = stock s := by
  have hpool : Function.update (stock s).pool w (s.reactor w).pool = (stock s).pool := Function.update_eq_self _ _
  rw [stock_pool hs hb, hp, hpool, h1, h2, h3]
  rfl

theorem stock_reactor {x : Reactor} (hp : x.pool = (s.reactor w).pool)
    (hb : x.dmaPoolAllocatedBytes = (s.reactor w).dmaPoolAllocatedBytes) : stock (s.setReactor w x) = stock s :=
  stock_beside rfl hp hb rfl rfl rfl

@[simp] theorem stock_post (s : Sys) (w : Nat) (m : Msg) : stock (s.post w m) = stock s := stock_reactor rfl rfl

@[simp] theorem stock_pop (s : Sys) (w : Nat) (rest : List Frame) :
    stock (s.setReactor w { s.reactor w with stack := rest }) = stock s := stock_reactor rfl rfl

/-- `release_buffer` subtracts exactly when the pool takes the buffer back. -/
theorem stock_releaseBuffer (s : Sys) (r : Ref) :
    stock (releaseBuffer e s r) =
      match (s.request r).bufferIndex with
      | none => stock s
      | some index =>
        match (s.reactor (s.request r).worker).pool.release index with
        | (.ok _, pool) => (stock s).giveBack e (s.request r).worker pool
        | (.error _, _) => stock s := by
  unfold releaseBuffer
  dsimp only
  cases (s.request r).bufferIndex with
  | none => rfl
  | some index =>
    dsimp only
    rw [stock_setRequest]
    rcases (s.reactor (s.request r).worker).pool.release index with ⟨_ | _, pool⟩
    · rfl
    · exact stock_pool (w := (s.request r).worker) (x := { s.reactor (s.request r).worker with pool }) rfl rfl

theorem stock_completeRequest (r : Ref) (success : Bool) (error : String) :
    stock (completeRequest s r success error).1 = stock s := by
  unfold completeRequest
  dsimp only
  split <;> rfl

/-- `complete_io_on_worker` gives back the lease. -/
theorem stock_completeIo (r : Ref) (success : Bool) :
    stock (completeIo e s r success).1 = stock (releaseBuffer e s r) := by
  unfold completeIo
  dsimp only
  split
  · split
    · rfl
    · rw [stock_releaseBuffer, stock_releaseBuffer]
      simp [Sys.setRequest, Sys.setBatch, stock]
  · rfl

/-- Once a buffer is leased: it stays so only where the submit call accepts the command. -/
theorem stock_submitIo {k address : Nat} {pool : SpdkBufferPool} (hw : (s.request r).worker = w)
    (hb : (s.request r).bufferIndex = some k) (hdata : (s.reactor w).pool.data k = .ok address)
    (hrel : (s.reactor w).pool.release k = (.ok (), pool)) (submitResult waitResult sendResult : Int) :
    stock (submitIo e s r k submitResult waitResult sendResult).1 =
      if submitResult = 0 then stock s else (stock s).giveBack e w pool := by
  subst hw
  have hback : ∀ (x : Reactor) (q : IoRequest), q.worker = (s.request r).worker → q.bufferIndex = some k →
      x.pool = (s.reactor (s.request r).worker).pool →
      x.dmaPoolAllocatedBytes = (s.reactor (s.request r).worker).dmaPoolAllocatedBytes →
      stock (releaseBuffer e ((s.setReactor (s.request r).worker x).setRequest r q) r) =
        (stock s).giveBack e (s.request r).worker pool := by
    intro x q h1 h2 h3 h4
    rw [stock_releaseBuffer]
    simp only [Sys.setRequest, Function.update_self, h1, h2, Sys.setReactor, h3, hrel]
    show Stock.giveBack (stock (s.setReactor (s.request r).worker x)) e _ _ = _
    rw [stock_reactor h3 h4]
  have henomem : enomem ≠ 0 := by decide
  unfold submitIo
  dsimp only
  rw [hdata]
  dsimp only
  split
  · rename_i hsubmit
    rw [if_neg fun h0 => henomem (hsubmit.symm.trans h0)]
    split
    · dsimp only
      refine (stock_reactor (by rfl) (by rfl)).trans ?_
      exact hback _ _ rfl hb rfl rfl
    · split
      · dsimp only
        refine (stock_post _ _ _).trans ?_
        exact hback _ _ rfl hb rfl rfl
      · exact hback _ _ rfl hb rfl rfl
  · by_cases hsubmit : submitResult = 0
    · rw [if_neg (not_not.2 hsubmit), if_pos hsubmit]
      dsimp only
      refine (stock_beside (by rfl) (by rfl) (by rfl) (by rfl) (by rfl) (by rfl)).trans ?_
      exact stock_reactor (by rfl) (by rfl)
    · rw [if_pos hsubmit, if_neg hsubmit]
      exact hback _ _ rfl hb rfl rfl

/-- `execute_io_on_worker` keeps a lease only with an accepted command. -/
theorem stock_executeIo (hw : (s.request r).worker = w) (hwf : (s.reactor w).pool.WF)
    (hb : (s.request r).bufferIndex = none) (submitResult waitResult sendResult : Int) :
    stock (executeIo e s w r submitResult waitResult sendResult).1 =
      match (s.reactor w).pool.tryAcquire with
      | (.ok (some _), pool) =>
        if submitResult = 0 then (stock s).lease e w pool
        else ((stock s).lease e w pool).giveBack e w (s.reactor w).pool
      | _ => stock s := by
  subst hw
  unfold executeIo
  rw [if_neg (not_not.2 rfl)]
  dsimp only [Sys.setRequest]
  rcases SpdkBufferPool.tryAcquire_cases hwf with ⟨hini, hacq⟩ | ⟨hini, hfree, hacq⟩ |
    ⟨k, rest, hini, hfree, hk, hlt, hacq⟩
  · rw [hacq]
    refine (stock_releaseBuffer _ _).trans ?_
    simp only [Sys.setReactor, Function.update_self, hb]
    exact stock_reactor rfl rfl
  · rw [hacq]
    exact stock_reactor rfl rfl
  · rw [hacq]
    have hacquired := hwf.acquired hfree hini
    have hdata := SpdkBufferPool.data_leased (i := k) hacquired
      ((SpdkBufferPool.leased_set_true (hwf.lengths ▸ hlt) k rest).2 (.inl rfl))
    rw [@stock_submitIo e _ (s.request r).worker r k _ (s.reactor (s.request r).worker).pool
      (by simp [Sys.setReactor]) (by simp [Sys.setReactor]) (by simpa [Sys.setReactor] using hdata)
      (by simpa [Sys.setReactor] using SpdkBufferPool.release_acquired hwf hini hfree)]
    have hlease : ∀ s1 : Sys, s1.reactor = Function.update s.reactor (s.request r).worker
        { s.reactor (s.request r).worker with
          pool := { (s.reactor (s.request r).worker).pool with
            freeIndexes := rest, inUse := (s.reactor (s.request r).worker).pool.inUse.set k true } } →
        s1.metrics.dmaBufferPoolAllocatedBytes = s.metrics.dmaBufferPoolAllocatedBytes →
        s1.metrics.dmaBufferPoolInUseBytes = add64 s.metrics.dmaBufferPoolInUseBytes e.geometry.ioSegmentSize →
        s1.metrics.dmaBufferPoolPeakInUseBytes = max s.metrics.dmaBufferPoolPeakInUseBytes
          (add64 s.metrics.dmaBufferPoolInUseBytes e.geometry.ioSegmentSize) →
        stock s1 = (stock s).lease e (s.request r).worker { (s.reactor (s.request r).worker).pool with
          freeIndexes := rest, inUse := (s.reactor (s.request r).worker).pool.inUse.set k true } := by
      intro s1 hs h1 h2 h3
      rw [stock_pool hs rfl, h1, h2, h3]
      rfl
    rw [hlease]
    all_goals rfl

theorem stock_onIoWorkerInitialized (error : String) : stock (onIoWorkerInitialized s error).1 = stock s := by
  obtain ⟨lastError, heq⟩ := onIoWorkerInitialized_eq s error
  rw [heq]
  split <;> rfl

theorem stock_requestShutdown (rc : Int) (error : String) : stock (requestShutdown s rc error).1 = stock s := by
  obtain ⟨lastError, code, start, -, heq⟩ := requestShutdown_eq s rc error
  rw [heq]
  rfl

theorem stock_postBeginShutdown (rc : Int) : stock (postBeginShutdown e s rc) = stock s := by
  unfold postBeginShutdown
  split
  · exact stock_post s 0 _
  · rfl

/-- `release_all` of worker `i`'s pool, and its accounting. -/
theorem stock_releasePool (s : Sys) (i : Nat) : stock (releasePool s i) = (stock s).drop i := by
  rw [stock_update (releasePool_spec s i).1]
  unfold releasePool releaseAccounting
  simp only [Sys.setReactor, Function.update_self]
  split
  · rename_i h
    have hb : (stock s).bytes i ≠ 0 := h
    simp only [Stock.drop, if_pos hb]
    rfl
  · rename_i h
    have hb : ¬ (stock s).bytes i ≠ 0 := h
    simp only [Stock.drop, if_neg hb]
    rfl

/-- `fillPool` fails and leaves the pool, or gives it `spdk_buffer_count` free buffers. -/
theorem fillPool_cases (hwf : (s.reactor w).pool.WF) (obtained : Nat) :
    (∃ x, fillPool e s w obtained = (.error x, (s.reactor w).pool)) ∨
    ((s.reactor w).pool.initialized = false ∧ fillPool e s w obtained = (.ok (),
      SpdkBufferPool.filled e.geometry.ioSegmentSize e.geometry.bufferAlignment
        (List.range e.geometry.spdkBufferCount))) := by
  obtain hx | ⟨buffers, hini, -, halloc, hx⟩ := SpdkBufferPool.initializePool_cases hwf
    e.geometry.ioSegmentSize e.geometry.bufferAlignment e.geometry.spdkBufferCount
    (fun i => if i < obtained then some i else none)
  · exact .inl hx
  · have hbuffers : buffers = List.range (0 + e.geometry.spdkBufferCount) := by
      refine SpdkBufferPool.allocateBuffers_range ?_ halloc
      intro i b hb
      split at hb
      · exact (Option.some.inj hb).symm
      · cases hb
    rw [Nat.zero_add] at hbuffers
    exact .inr ⟨hini, hbuffers ▸ hx⟩

/-- `initialize_io_worker` counts the pool it fills. -/
theorem stock_initializeIoWorker (hwf : (s.reactor w).pool.WF) (onReactor channel : Bool) (obtained : Nat) :
    stock (initializeIoWorker e s w onReactor channel obtained).1 =
      if (onReactor && channel && (fillPool e s w obtained).1.toBool) = true then
        (stock s).fill e w (fillPool e s w obtained).2
      else stock s := by
  unfold initializeIoWorker
  dsimp only
  cases onReactor with
  | false => rfl
  | true =>
    cases channel with
    | false => rfl
    | true =>
      rw [if_neg (by decide), if_neg (by decide)]
      obtain ⟨x, hx⟩ | ⟨hini, hx⟩ := fillPool_cases (e := e) hwf obtained
      · rw [hx]
        unfold fillPool at hx
        rw [hx]
        exact stock_reactor (by rfl) (by rfl)
      · rw [hx]
        unfold fillPool at hx
        rw [hx]
        exact (stock_update (s := s) (w := w) rfl).trans rfl

/-- A worker that cannot be told to stop has its pool released from the application thread. -/
theorem stock_postShutdown {i : Nat} {rc : Int} {fs : List Frame} (hrc : rc ≠ 0)
    (h : runLife e s w (.postShutdown i) (.code rc) = some (s1, fs)) : stock s1 = (stock s).drop i := by
  simp only [runLife, if_neg hrc] at h
  split at h
  · cases h
    refine (stock_reactor (by rfl) (by rfl)).trans ?_
    exact stock_releasePool _ i
  · cases h

theorem stock_releaseIoWorker {fs : List Frame} (h : runLife e s w .releaseIoWorker .next = some (s1, fs)) :
    stock s1 = (stock s).drop w := by
  simp only [runLife] at h
  cases h
  refine (stock_reactor (by rfl) (by rfl)).trans ?_
  exact stock_releasePool s w

/-! ## What a step does -/

/-- What a step does to the stock, and its operations on the gauges of what is in use and of what is allocated. -/
inductive Dealt (e : Env) (s : Sys) : Action → List (Nat × GaugeOp) → List (Nat × GaugeOp) → Stock → Prop
  | quiet (a : Action) : Dealt e s a [] [] (stock s)
  | leased (w : Nat) (c : Choice) (k : Nat) (free : List Nat) (hini : (s.reactor w).pool.initialized = true)
      (hfree : (s.reactor w).pool.freeIndexes = k :: free) :
      Dealt e s (.reactor w c) [(w, .add e.geometry.ioSegmentSize), (w, .raise)] []
        ((stock s).lease e w { (s.reactor w).pool with
          freeIndexes := free, inUse := (s.reactor w).pool.inUse.set k true })
  | bounced (w : Nat) (c : Choice) (pool : SpdkBufferPool) (hini : (s.reactor w).pool.initialized = true)
      (hfree : (s.reactor w).pool.freeIndexes ≠ []) :
      Dealt e s (.reactor w c)
        [(w, .add e.geometry.ioSegmentSize), (w, .raise), (w, .sub e.geometry.ioSegmentSize)] []
        (((stock s).lease e w pool).giveBack e w (s.reactor w).pool)
  | returned (w : Nat) (c : Choice) (k : Nat) (hl : (s.reactor w).pool.Leased k) :
      Dealt e s (.reactor w c) [(w, .sub e.geometry.ioSegmentSize)] []
        ((stock s).giveBack e w { (s.reactor w).pool with
          inUse := (s.reactor w).pool.inUse.set k false, freeIndexes := k :: (s.reactor w).pool.freeIndexes })
  | filled (w obtained : Nat) (onReactor channel : Bool) (rest : List Frame)
      (hst : (s.reactor w).stack = .life .initializeIoWorker :: rest) (hini : (s.reactor w).pool.initialized = false)
      (hready : (onReactor && channel) = true) (hok : (fillPool e s w obtained).1.toBool = true) :
      Dealt e s (.reactor w (.setUp onReactor channel obtained)) [] [(w, .add e.poolBytes)]
        ((stock s).fill e w (SpdkBufferPool.filled e.geometry.ioSegmentSize e.geometry.bufferAlignment
          (List.range e.geometry.spdkBufferCount)))
  | dropped (w v : Nat) (c : Choice) (f : LifeFrame) (rest : List Frame) (hst : (s.reactor w).stack = .life f :: rest)
      (hf : f = .releaseIoWorker ∧ v = w ∨ f = .postShutdown v) :
      Dealt e s (.reactor w c) [] (freeOps s w v) ((stock s).drop v)
  | cleared (w : Nat) (rest : List Frame) (hst : (s.reactor w).stack = .life .releaseDescriptor :: rest) :
      Dealt e s (.reactor w .next) [(w, .clear)] [] { stock s with inUse := 0 }

section
variable {rest : List Frame} {c : Choice}

theorem dealt_quiet {a : Action} {t : Stock} (h1 : inUseOps e s a = []) (h2 : allocatedOps e s a = [])
    (h3 : t = stock s) : Dealt e s a (inUseOps e s a) (allocatedOps e s a) t := by
  rw [h1, h2, h3]
  exact .quiet a

theorem runIo_dealt (ht : Tracks s κ) (hc : Consistent e κ) {f : IoFrame} (hst : (s.reactor w).stack = .io f :: rest)
    {fs : List IoFrame} (h : runIo e (s.setReactor w { s.reactor w with stack := rest }) w f c = some (s1, fs)) :
    Dealt e s (.reactor w c) (inUseOps e s (.reactor w c)) (allocatedOps e s (.reactor w c)) (stock s1) := by
  have htidy := ht.tidy.reactor w
  have hpopped : ((s.setReactor w { s.reactor w with stack := rest }).reactor w) =
      { s.reactor w with stack := rest } := by simp [Sys.setReactor]
  have hreq : (s.setReactor w { s.reactor w with stack := rest }).request = s.request := rfl
  have hentry : ∀ y ∈ f.entries, κ.stage y.1 = y.2 ∧ (s.request y.1).worker = w := fun y hy =>
    ht.entry (entries_frame (f := .io f) (hst ▸ List.mem_cons_self) hy)
  unfold runIo at h
  split at h
  · cases h
    exact dealt_quiet (by simp [inUseOps, hst]) (by simp [allocatedOps, hst]) (stock_pop s w rest)
  · cases h
    exact dealt_quiet (by simp [inUseOps, hst]) (by simp [allocatedOps, hst]) (stock_pop s w rest)
  · -- `execute_io_on_worker`
    rename_i r submitResult waitResult sendResult
    obtain ⟨hstage, hw⟩ := hentry (r, .queued) (by simp [IoFrame.entries])
    have hfits := hc.fits r
    rw [show κ.stage r = .queued from hstage, ht.request] at hfits
    have hstock := stock_executeIo (e := e) (s := s.setReactor w { s.reactor w with stack := rest }) (r := r) (w := w)
      hw (by rw [hpopped]; exact htidy.pool) hfits.2.2.1 submitResult waitResult sendResult
    rw [Option.some.inj h, hpopped, stock_pop] at hstock
    dsimp only at hstock
    rcases SpdkBufferPool.tryAcquire_cases htidy.pool with ⟨-, hacq⟩ | ⟨-, -, hacq⟩ | ⟨k, free, hini, hfree, -, -, hacq⟩
    · rw [hacq] at hstock
      exact dealt_quiet (by simp [inUseOps, hst, hacq]) rfl hstock
    · rw [hacq] at hstock
      exact dealt_quiet (by simp [inUseOps, hst, hacq]) rfl hstock
    · rw [hacq] at hstock
      dsimp only at hstock
      by_cases hsubmit : submitResult = 0
      · rw [if_pos hsubmit] at hstock
        have hops : inUseOps e s (.reactor w (.submit submitResult waitResult sendResult)) =
            [(w, .add e.geometry.ioSegmentSize), (w, .raise)] := by
          simp [inUseOps, hst, hacq, hsubmit]
        rw [hops, hstock]
        exact .leased w _ k free hini hfree
      · rw [if_neg hsubmit] at hstock
        have hops : inUseOps e s (.reactor w (.submit submitResult waitResult sendResult)) =
            [(w, .add e.geometry.ioSegmentSize), (w, .raise), (w, .sub e.geometry.ioSegmentSize)] := by
          simp [inUseOps, hst, hacq, hsubmit]
        rw [hops, hstock]
        exact .bounced w _ _ hini (hfree ▸ List.cons_ne_nil _ _)
  · dsimp only at h
    split at h
    · cases h
    · split at h
      · cases h
        refine dealt_quiet (by simp [inUseOps]) (by simp [allocatedOps]) ?_
        exact (stock_reactor (by rfl) (by rfl)).trans (stock_pop s w rest)
      · cases h
  · cases h
    exact dealt_quiet (by simp [inUseOps, hst]) (by simp [allocatedOps, hst]) (stock_pop s w rest)
  · -- `complete_io_on_worker`
    rename_i r success
    obtain ⟨hstage, hw⟩ := hentry (r, .reported success) (by simp [IoFrame.entries])
    have hw : (s.request r).worker = w := hw
    have hstock := stock_completeIo (e := e) (s := s.setReactor w { s.reactor w with stack := rest }) r success
    rw [Option.some.inj h, stock_releaseBuffer, hreq, hw, hpopped, stock_pop] at hstock
    dsimp only at hstock
    cases hk : (s.request r).bufferIndex with
    | none =>
      rw [hk] at hstock
      exact dealt_quiet (by simp [inUseOps, hst, hk]) (by simp [allocatedOps, hst]) hstock
    | some k =>
      rw [hk] at hstock
      dsimp only at hstock
      by_cases hl : (s.reactor w).pool.Leased k
      · have hrel := SpdkBufferPool.release_leased htidy.pool hl
        rw [hrel] at hstock
        have hops : inUseOps e s (.reactor w .next) = [(w, .sub e.geometry.ioSegmentSize)] := by
          simp [inUseOps, hst, hk, hrel]
        rw [hops, hstock, show allocatedOps e s (.reactor w .next) = [] by simp [allocatedOps, hst]]
        exact .returned w _ k hl
      · obtain ⟨x, hx⟩ := SpdkBufferPool.release_unleased htidy.pool hl
        rw [hx] at hstock
        exact dealt_quiet (by simp [inUseOps, hst, hk, hx]) (by simp [allocatedOps, hst]) hstock
  · rename_i r success error
    have hdone := congrArg Prod.fst (Option.some.inj h)
    refine dealt_quiet (by simp [inUseOps, hst]) (by simp [allocatedOps, hst]) ?_
    refine (congrArg stock hdone.symm).trans ?_
    exact (stock_completeRequest r success error).trans (stock_pop s w rest)
  · split at h
    · cases h
      exact dealt_quiet (by simp [inUseOps, hst]) (by simp [allocatedOps, hst]) (stock_pop s w rest)
    · cases h
      exact dealt_quiet (by simp [inUseOps, hst]) (by simp [allocatedOps, hst]) (stock_pop s w rest)
  · dsimp only at h
    split at h
    · cases h
      exact dealt_quiet (by simp [inUseOps, hst]) (by simp [allocatedOps, hst]) (stock_pop s w rest)
    · cases h
      refine dealt_quiet (by simp [inUseOps, hst]) (by simp [allocatedOps, hst]) ?_
      exact (stock_reactor (by rfl) (by rfl)).trans (stock_pop s w rest)
  · dsimp only at h
    split at h
    · split at h
      · cases h
        refine dealt_quiet (by simp [inUseOps, hst]) (by simp [allocatedOps, hst]) ?_
        exact (stock_reactor (by rfl) (by rfl)).trans (stock_pop s w rest)
      · cases h
        refine dealt_quiet (by simp [inUseOps, hst]) (by simp [allocatedOps, hst]) ?_
        exact (stock_reactor (by rfl) (by rfl)).trans (stock_pop s w rest)
    · cases h
      refine dealt_quiet (by simp [inUseOps, hst]) (by simp [allocatedOps, hst]) ?_
      exact (stock_reactor (by rfl) (by rfl)).trans (stock_pop s w rest)
  · cases h

/-- `initialize_io_worker` adds what it allocates, once. -/
theorem setUp_dealt (ht : Tracks s κ) (hst : (s.reactor w).stack = .life .initializeIoWorker :: rest)
    (onReactor channel : Bool) (obtained : Nat) :
    Dealt e s (.reactor w (.setUp onReactor channel obtained))
      (inUseOps e s (.reactor w (.setUp onReactor channel obtained)))
      (allocatedOps e s (.reactor w (.setUp onReactor channel obtained)))
      (stock (initializeIoWorker e (s.setReactor w { s.reactor w with stack := rest }) w onReactor channel
        obtained).1) := by
  have hpool := (ht.tidy.reactor w).pool
  have hfill : fillPool e (s.setReactor w { s.reactor w with stack := rest }) w obtained = fillPool e s w obtained := by
    simp [fillPool, Sys.setReactor]
  rw [stock_initializeIoWorker (by simpa [Sys.setReactor] using hpool), stock_pop, hfill]
  obtain ⟨x, hx⟩ | ⟨hini, hx⟩ := fillPool_cases (e := e) hpool obtained
  · rw [hx, if_neg (by simp [Except.toBool])]
    exact dealt_quiet rfl (by simp [allocatedOps, hst, hx]) rfl
  · by_cases hready : (onReactor && channel) = true
    · have hops : allocatedOps e s (.reactor w (.setUp onReactor channel obtained)) = [(w, .add e.poolBytes)] := by
        simp only [allocatedOps, hst, hready, hx, if_true]
      rw [hops, if_pos (by rw [hready, hx]; rfl), hx]
      exact .filled w obtained onReactor channel rest hst hini hready (by rw [hx]; rfl)
    · rw [if_neg fun h => hready (Bool.and_eq_true_iff.1 h).1]
      refine dealt_quiet rfl ?_ rfl
      simp only [allocatedOps, hst, if_neg hready]

theorem runLife_dealt (ht : Tracks s κ) {f : LifeFrame} (hst : (s.reactor w).stack = .life f :: rest) {fs : List Frame}
    (h : runLife e (s.setReactor w { s.reactor w with stack := rest }) w f c = some (s1, fs)) :
    Dealt e s (.reactor w c) (inUseOps e s (.reactor w c)) (allocatedOps e s (.reactor w c)) (stock s1) := by
  have hquiet : inUseOps e s (.reactor w c) = [] → allocatedOps e s (.reactor w c) = [] →
      stock s1 = stock (s.setReactor w { s.reactor w with stack := rest }) →
      Dealt e s (.reactor w c) (inUseOps e s (.reactor w c)) (allocatedOps e s (.reactor w c)) (stock s1) :=
    fun h1 h2 h3 => dealt_quiet h1 h2 (h3.trans (stock_pop s w rest))
  unfold runLife at h
  split at h
  case h_6 =>
    cases h
    exact setUp_dealt ht hst _ _ _
  case h_7 =>
    cases h
    exact hquiet (by simp [inUseOps, hst]) (by simp [allocatedOps, hst]) (stock_onIoWorkerInitialized _)
  case h_10 =>
    cases h
    exact hquiet (by simp [inUseOps, hst]) (by simp [allocatedOps, hst]) (stock_requestShutdown _ _)
  case h_11 =>
    cases h
    exact hquiet (by simp [inUseOps]) (by simp [allocatedOps, hst]) (stock_postBeginShutdown _)
  case h_13 i rc =>
    -- a worker that cannot be told has its pool released from here
    by_cases hrc : rc = 0
    · rw [if_pos hrc] at h
      split at h
      · cases h
        refine hquiet (by simp [inUseOps]) (by simp [allocatedOps, hst, hrc]) ?_
        exact stock_post _ _ _
      · cases h
    · have hops : allocatedOps e s (.reactor w (.code rc)) = freeOps s w i := by simp [allocatedOps, hst, hrc]
      have hstock := stock_postShutdown (e := e) (s := s.setReactor w { s.reactor w with stack := rest }) (w := w)
        (i := i) hrc h
      rw [hops, hstock, stock_pop]
      exact .dropped w i _ _ rest hst (.inr rfl)
  case h_16 =>
    have hops : allocatedOps e s (.reactor w .next) = freeOps s w w := by simp [allocatedOps, hst]
    have hstock := stock_releaseIoWorker (e := e) (s := s.setReactor w { s.reactor w with stack := rest }) h
    rw [hops, show inUseOps e s (.reactor w .next) = [] by simp [inUseOps, hst], hstock, stock_pop]
    exact .dropped w w _ _ rest hst (.inl ⟨rfl, rfl⟩)
  case h_20 =>
    cases h
    have hops : inUseOps e s (.reactor w .next) = [(w, .clear)] := by simp [inUseOps, hst]
    have hstock : stock { (s.setReactor w { s.reactor w with stack := rest }) with
        ctx := { s.ctx with bdevDescriptor := false }
        metrics := { s.metrics with dmaBufferPoolInUseBytes := 0 } } = { stock s with inUse := 0 } :=
      congrArg (fun t : Stock => { t with inUse := 0 }) (stock_pop s w rest)
    rw [hops, show allocatedOps e s (.reactor w .next) = [] by simp [allocatedOps, hst]]
    exact hstock ▸ .cleared w rest hst
  all_goals
    try dsimp only at h
    repeat' split at h
    all_goals cases h
    all_goals
      refine hquiet (by simp [inUseOps, hst]) (by simp [allocatedOps, hst]) ?_
      first | rfl | exact stock_post _ _ _ | exact stock_reactor (by rfl) (by rfl)

theorem stock_pickUp (h : pickUp s w c = some s') : stock s' = stock s := by
  unfold pickUp at h
  split at h
  all_goals
    try dsimp only at h
    repeat' split at h
    all_goals cases h
    all_goals exact stock_reactor (by rfl) (by rfl)

theorem reactorStep_dealt (ht : Tracks s κ) (hc : Consistent e κ) (h : reactorStep e s w c = some s') :
    Dealt e s (.reactor w c) (inUseOps e s (.reactor w c)) (allocatedOps e s (.reactor w c)) (stock s') := by
  unfold reactorStep at h
  split at h
  · rename_i hst
    refine dealt_quiet ?_ ?_ (stock_pickUp h)
    · cases c <;> simp [inUseOps, hst]
    · cases c <;> simp [allocatedOps, hst]
  · rename_i f rest hst
    obtain ⟨⟨s1, fs⟩, hrun, rfl⟩ := Option.map_eq_some_iff.1 h
    rw [stock_pop]
    cases f with
    | io f =>
      obtain ⟨⟨s2, fs'⟩, hio, heq⟩ := Option.map_eq_some_iff.1 hrun
      cases heq
      exact runIo_dealt ht hc hst hio
    | life f => exact runLife_dealt ht hst hrun

end

theorem stock_callerStep {b : Nat} {c : Choice} (h : callerStep e s b c = some s') : stock s' = stock s := by
  unfold callerStep at h
  dsimp only at h
  split at h
  case h_3 =>
    repeat' split at h
    · cases h
      rfl
    · cases h
      rfl
    · cases h
      exact stock_post _ _ _
  case h_5 =>
    cases h
    exact stock_completeRequest _ _ _
  all_goals
    repeat' split at h
    all_goals cases h
    all_goals rfl

theorem stock_submitBatch (operation : Operation) (items : List IoBatchItem) (memory : Nat → Nat → UInt8) :
    stock (submitBatch e s operation items memory) = stock s := by
  unfold submitBatch
  dsimp only
  split
  · rfl
  · split <;> rfl

theorem stock_ownerStep {c : Choice} (h : ownerStep e s c = some s') : stock s' = stock s := by
  unfold ownerStep at h
  split at h
  case h_7 =>
    cases h
    exact stock_requestShutdown _ _
  case h_8 =>
    cases h
    exact stock_postBeginShutdown _
  all_goals
    repeat' split at h
    all_goals cases h
    all_goals rfl

theorem stock_transfer {k n : Nat} (h : transfer e s w k n = some s') : stock s' = stock s := by
  unfold transfer at h
  dsimp only at h
  repeat' split at h
  all_goals cases h
  all_goals exact stock_reactor (by rfl) (by rfl)

theorem stock_disturb {k : Nat} {noise : Nat → UInt8} (h : disturb e s w k noise = some s') : stock s' = stock s := by
  unfold disturb at h
  dsimp only at h
  repeat' split at h
  all_goals cases h
  all_goals exact stock_reactor (by rfl) (by rfl)

/-- **A step of the context and its operations on the gauges.** -/
theorem step_dealt (ht : Tracks s κ) (hc : Consistent e κ) {a : Action} (h : step e s a = some s') :
    Dealt e s a (inUseOps e s a) (allocatedOps e s a) (stock s') := by
  cases a with
  | reactor w c =>
    simp only [step] at h
    split at h
    · exact reactorStep_dealt ht hc h
    · cases h
  | caller b c => exact dealt_quiet rfl rfl (stock_callerStep h)
  | submit operation items memory =>
    simp only [step] at h
    split at h
    · cases h
      exact dealt_quiet rfl rfl (stock_submitBatch operation items memory)
    · cases h
  | owner c => exact dealt_quiet rfl rfl (stock_ownerStep h)
  | transfer w k n => exact dealt_quiet rfl rfl (stock_transfer h)
  | disturb w k noise => exact dealt_quiet rfl rfl (stock_disturb h)
  | runtimeStops =>
    cases h
    exact dealt_quiet rfl rfl rfl

end SpdkBdevContext
end SpdkConnector
