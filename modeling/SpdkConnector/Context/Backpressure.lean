import SpdkConnector.Context.Starts
import SpdkConnector.Context.Calm
import SpdkConnector.Interleaving.Fifo

/-!
# Backpressure

A worker out of buffers parks its requests in `pending_io` and drains it when a lease is given back. Before
the teardown a reactor's stack has one of the shapes of `Working`: wherever a buffer is free beside a
nonempty `pending_io`, a drain is running or about to. So between callbacks one of the two is empty, and a
request gets a buffer only past an empty queue or at its head (`backpressure`).
-/

namespace SpdkConnector
namespace SpdkBdevContext

open Interleaving

variable {e : Env} {s s' : Sys} {κ κ' : Core} {w v : Nat} {x y : Reactor} {rest : List Frame}

/-! ## The stack of a worker -/

/-- What a callback that executes requests has below them. -/
inductive Base : List Frame → Prop
  | idle : Base []
  | batch (rs : List Ref) : Base [.io (.executeWorkerBatch rs)]
  | freeing (r : Ref) (success : Bool) : Base [.io (.freeIo r success)]

/-- The same, with the drain loop on it while `draining_pending_io` is set. -/
inductive Below (w : Nat) : Bool → List Frame → Prop
  | plain {st : List Frame} (h : Base st) : Below w false st
  | looping {st : List Frame} (h : Base st) : Below w true (.io (.drainLoop w) :: st)

/-- There is nothing to drain. -/
def Reactor.Drained (x : Reactor) : Prop := x.pendingIo = [] ∨ x.pool.freeIndexes = []

/-- The stacks of a worker that is not being torn down. -/
def Working (w : Nat) (x : Reactor) : Prop :=
  match x.stack with
  | [] => x.drainingPendingIo = false ∧ x.Drained
  | .life _ :: rest => (∀ f ∈ rest, ∃ g, f = .life g) ∧ x.drainingPendingIo = false ∧ x.Drained
  | .io (.executeWorkerBatch _) :: rest | .io (.freeIo _ _) :: rest | .io (.completeIo _ _) :: rest =>
    rest = [] ∧ x.drainingPendingIo = false ∧ x.Drained
  | .io (.executeIo _) :: rest => Below w x.drainingPendingIo rest ∧ (x.drainingPendingIo = false → x.Drained) ∧
    (x.drainingPendingIo = true → x.pool.freeIndexes ≠ [])
  | .io (.completeRequest _ _ _) :: rest | .io (.notifyOne _) :: rest =>
    ∃ st, rest = .io (.drainPendingIo w) :: st ∧ Below w x.drainingPendingIo st
  | .io (.drainPendingIo _) :: rest => Below w x.drainingPendingIo rest
  | .io (.drainLoop _) :: rest => x.drainingPendingIo = true ∧ Base rest

/-- A change of what the shape does not mention. -/
theorem Working.congr (h : Working w x) (h1 : y.stack = x.stack) (h2 : y.drainingPendingIo = x.drainingPendingIo)
    (h3 : y.pendingIo = x.pendingIo) (h4 : y.pool = x.pool) : Working w y := by
  simpa only [Working, Reactor.Drained, h1, h2, h3, h4] using h

/-- What is below goes on: a callback that is not draining has nothing to drain. -/
theorem Below.working (h : Below w x.drainingPendingIo rest) (hd : x.drainingPendingIo = false → x.Drained) :
    Working w { x with stack := rest } := by
  cases hdr : x.drainingPendingIo with
  | false =>
    rw [hdr] at h
    cases h with
    | plain h => cases h <;> simpa [Working, hdr, Reactor.Drained] using hd hdr
  | true =>
    rw [hdr] at h
    cases h with
    | looping h => exact ⟨rfl, h⟩

/-! ## The I/O callbacks -/

/-- `execute_io_on_worker` parks the request, gives it up, or has its command accepted. -/
theorem parked_working {r : Ref} {fs : List IoFrame} (h : Working w x)
    (hst : x.stack = .io (.executeIo r) :: rest) (hp : Parked r w { x with stack := rest } y fs) :
    Working w { y with stack := fs.map .io ++ rest } := by
  simp only [Working, hst] at h
  obtain ⟨hbelow, hd, hfree⟩ := h
  cases hp with
  | starved hini hnone =>
    refine Below.working (x := { x with pendingIo := x.pendingIo ++ [r] }) hbelow fun _ => .inr hnone
  | waiting => exact Below.working (x := { x with ioWait := x.ioWait ++ [r] }) hbelow hd
  | retried => exact Below.working (x := { x with queue := x.queue ++ [.retryIo r] }) hbelow hd
  | failed error => exact ⟨rest, rfl, hbelow⟩

theorem done_working {f : IoFrame} {fs : List IoFrame} (h : Working w x)
    (hst : x.stack = .io f :: rest) (hdone : Done w { x with stack := rest } f y fs) :
    Working w { y with stack := fs.map .io ++ rest } := by
  cases hdone with
  | dispatched =>
    simp only [Working, hst] at h
    obtain ⟨rfl, hn, hd⟩ := h
    exact ⟨hn, hd⟩
  | dispatch r rs =>
    simp only [Working, hst] at h
    obtain ⟨rfl, hn, hd⟩ := h
    refine ⟨?_, fun _ => hd, fun ht => ?_⟩
    · rw [hn]
      exact .plain (.batch rs)
    · rw [hn] at ht
      cases ht
  | parked r dma y fs hp => exact parked_working (x := { x with dma }) (h.congr rfl rfl rfl rfl) hst hp
  | accepted r k free dma c hini hfree hc =>
    simp only [Working, hst] at h
    obtain ⟨hbelow, hd, -⟩ := h
    refine Below.working (x := { x with
      pool := { x.pool with freeIndexes := free, inUse := x.pool.inUse.set k true }
      dma, inFlight := x.inFlight ++ [c] }) hbelow fun hf => ?_
    -- there was a buffer to lease, so nothing was waiting for one
    rcases hd hf with hp | hp
    · exact .inl hp
    · rw [hfree] at hp
      cases hp
  | fired r success k r' hk hheld =>
    simp only [Working, hst] at h
    obtain ⟨rfl, hn, hd⟩ := h
    refine ⟨?_, fun _ => hd, fun ht => ?_⟩
    · rw [hn]
      exact .plain (.freeing r success)
    · rw [hn] at ht
      cases ht
  | freed r success =>
    simp only [Working, hst] at h
    obtain ⟨rfl, hn, hd⟩ := h
    exact ⟨rfl, hn, hd⟩
  | released r success success' error k =>
    simp only [Working, hst] at h
    obtain ⟨rfl, hn, -⟩ := h
    refine ⟨[], rfl, ?_⟩
    rw [hn]
    exact .plain .idle
  | completed r success error fs hfs =>
    simp only [Working, hst] at h
    obtain ⟨st, rfl, hbelow⟩ := h
    rcases hfs with rfl | rfl
    · exact hbelow
    · exact ⟨st, rfl, hbelow⟩
  | notified b =>
    simp only [Working, hst] at h
    obtain ⟨st, rfl, hbelow⟩ := h
    exact hbelow
  | nested hdr =>
    simp only [Working, hst] at h
    refine Below.working (x := x) h fun hn => ?_
    rw [show x.drainingPendingIo = true from hdr] at hn
    cases hn
  | drains hn =>
    simp only [Working, hst, show x.drainingPendingIo = false from hn] at h
    cases h with
    | plain h => exact ⟨rfl, h⟩
  | popped r tail hp ha =>
    simp only [Working, hst] at h
    obtain ⟨hdr, hbase⟩ := h
    refine ⟨?_, fun hn => ?_, fun _ => ha⟩
    · rw [hdr]
      exact .looping hbase
    · rw [hdr] at hn
      cases hn
  | drained hd =>
    simp only [Working, hst] at h
    exact Below.working (x := { x with drainingPendingIo := false }) (.plain h.2) fun _ => hd

/-! ## Every step -/

/-- A worker that parks requests has a pool, and a pool has buffers. -/
structure Primed (x : Reactor) : Prop where
  pending : x.pendingIo ≠ [] → x.pool.initialized = true
  buffers : x.pool.initialized = true → x.pool.buffers ≠ []

theorem Primed.congr (h : Primed x) (h1 : y.pendingIo = x.pendingIo) (h2 : y.pool = x.pool) : Primed y :=
  ⟨by rw [h1, h2]; exact h.pending, by rw [h2]; exact h.buffers⟩

theorem poolAfterRelease_same (p : SpdkBufferPool) (k : Option Nat) :
    (poolAfterRelease p k).initialized = p.initialized ∧ (poolAfterRelease p k).buffers = p.buffers := by
  cases k with
  | none => exact ⟨rfl, rfl⟩
  | some k =>
    unfold poolAfterRelease SpdkBufferPool.release
    dsimp only
    split <;> exact ⟨rfl, rfl⟩

theorem done_primed {f : IoFrame} {fs : List IoFrame} {st : List Frame} (h : Primed x)
    (hdone : Done w { x with stack := rest } f y fs) : Primed { y with stack := st } := by
  cases hdone with
  | parked r dma y fs hp =>
    cases hp with
    | starved hini => exact ⟨fun _ => hini, h.buffers⟩
    | waiting | retried | failed => exact ⟨h.pending, h.buffers⟩
  | accepted r k free dma c hini => exact ⟨fun _ => hini, h.buffers⟩
  | released r success success' error k =>
    obtain ⟨h1, h2⟩ := poolAfterRelease_same x.pool (some k)
    refine ⟨fun hp => h1.trans (h.pending hp), fun hi => ?_⟩
    show (poolAfterRelease x.pool (some k)).buffers ≠ []
    rw [h2]
    exact h.buffers (h1.symm.trans hi)
  | popped r tail hp => exact ⟨fun _ => h.pending (by rw [show x.pendingIo = r :: tail from hp]; nofun), h.buffers⟩
  | _ => exact ⟨h.pending, h.buffers⟩

/-- A call that tears no worker down. -/
theorem tended_working {f : LifeFrame} {c : Choice} {fs : List Frame} (h : Working w x) (hprimed : Primed x)
    (hst : x.stack = .life f :: rest) (hf : ¬ f.Tearing) (ht : Tended w { x with stack := rest } f c y fs) :
    Working w { y with stack := fs ++ rest } ∧ Primed { y with stack := fs ++ rest } := by
  simp only [Working, hst] at h
  obtain ⟨hlife, hn, hd⟩ := h
  have hshape : ∀ (fs : List LifeFrame) (z : Reactor), z.drainingPendingIo = false → z.Drained →
      Working w { z with stack := fs.map .life ++ rest } := by
    intro fs z hz hdz
    have hall : ∀ f ∈ fs.map Frame.life ++ rest, ∃ g, f = .life g := by
      intro f hf
      rcases List.mem_append.1 hf with hf | hf
      · obtain ⟨g, -, rfl⟩ := List.mem_map.1 hf
        exact ⟨g, rfl⟩
      · exact hlife f hf
    cases hl : fs.map Frame.life ++ rest with
    | nil => exact ⟨hz, hdz⟩
    | cons g st =>
      rw [hl] at hall
      obtain ⟨g', rfl⟩ := hall g List.mem_cons_self
      exact ⟨fun f hf => hall f (List.mem_cons_of_mem _ hf), hz, hdz⟩
  cases ht with
  | quiet f fs hfs => exact ⟨hshape fs x hn hd, hprimed.congr rfl rfl⟩
  | posted f fs hfs m g => exact ⟨hshape fs { x with queue := x.queue ++ [m] } hn hd, hprimed.congr rfl rfl⟩
  | setUp pool dma bytes ioChannel channelHeld error hpool =>
    rcases hpool with rfl | ⟨hini, size, alignment, n, hpos, rfl⟩
    · exact ⟨hshape [_] { x with dma, dmaPoolAllocatedBytes := bytes, ioChannel, channelHeld } hn hd,
        hprimed.congr rfl rfl⟩
    · have hnone : x.pendingIo = [] := by
        by_contra hp
        have hini' := hprimed.pending hp
        rw [show x.pool.initialized = false from hini] at hini'
        cases hini'
      refine ⟨hshape [_] { x with
        pool := SpdkBufferPool.filled size alignment (List.range n), dma, dmaPoolAllocatedBytes := bytes, ioChannel,
        channelHeld } hn (.inl hnone), fun hp => absurd hnone hp, fun _ => ?_⟩
      simp [SpdkBufferPool.filled, Nat.ne_of_gt hpos]
  | own | cut | flushed | flushedAll | released => exact absurd trivial hf

/-- **Every step before the teardown keeps the shape of a worker's stack.** -/
theorem acted_working {a : Action} (hcalm : s.Calm) (h : Working v (s.reactor v)) (hprimed : Primed (s.reactor v))
    (ha : Acted s v a y) : Working v y ∧ Primed y := by
  cases ha with
  | same => exact ⟨h, hprimed⟩
  | dispatch | posted | moved => exact ⟨h.congr rfl rfl rfl rfl, hprimed.congr rfl rfl⟩
  | message m rest hidle hq =>
    simp only [Working, hidle] at h
    obtain ⟨hn, hd⟩ := h
    refine ⟨?_, hprimed.congr rfl rfl⟩
    cases m with
    | executeWorkerBatch d => exact ⟨rfl, hn, hd⟩
    | retryIo r =>
      refine ⟨?_, fun _ => hd, fun ht => ?_⟩
      · rw [hn]
        exact .plain .idle
      · rw [hn] at ht
        cases ht
    | «open» | initializeIoWorker | beginShutdown | shutdownIoWorker | finishShutdown => exact ⟨by simp, hn, hd⟩
  | completion k success c hidle hk =>
    simp only [Working, hidle] at h
    exact ⟨⟨rfl, h⟩, hprimed.congr rfl rfl⟩
  | ioWait k r hidle hk hheld =>
    simp only [Working, hidle] at h
    obtain ⟨hn, hd⟩ := h
    refine ⟨⟨?_, fun _ => hd, fun ht => ?_⟩, hprimed.congr rfl rfl⟩
    · rw [hn]
      exact .plain .idle
    · rw [hn] at ht
      cases ht
  | event c rc error hidle =>
    simp only [Working, hidle] at h
    exact ⟨⟨by simp, h⟩, hprimed.congr rfl rfl⟩
  | io c f rest y fs hst hdone => exact ⟨done_working h hst hdone, done_primed hprimed hdone⟩
  | life c f rest y fs hst htended =>
    exact tended_working h hprimed hst (hcalm v f (hst ▸ List.mem_cons_self)) htended
  | reached u c f rest y hu hst hreached =>
    have hf := hcalm u f (hst ▸ List.mem_cons_self)
    cases hreached with
    | same => exact ⟨h, hprimed⟩
    | posted => exact ⟨h.congr rfl rfl rfl rfl, hprimed.congr rfl rfl⟩
    | cut => exact absurd trivial hf

/-! ## The order of the leases -/

/-- What `try_acquire` gives a request: it joins `pending_io`, or leases a buffer. -/
def SpdkBufferPool.events (p : SpdkBufferPool) (r : Ref) : List (Fifo.Event Ref) :=
  match p.tryAcquire with
  | (.ok none, _) => [.joins r]
  | (.ok (some _), _) => [.served r]
  | (.error _, _) => []

/-- The requests that ask the pool of worker `w` for a buffer in a step. -/
def leaseEvents (w : Nat) (s : Sys) : Action → List (Fifo.Event Ref)
  | .reactor v _ =>
    match (s.reactor v).stack with
    | .io (.executeIo r) :: _ => if v = w then SpdkBufferPool.events (s.reactor w).pool r else []
    | _ => []
  | _ => []

/-- The request `drain_pending_io` has taken off `pending_io` and is about to execute. -/
def Reactor.inHand (x : Reactor) : List Ref :=
  match x.stack with
  | .io (.executeIo r) :: .io (.drainLoop _) :: _ => [r]
  | _ => []

theorem Below.inHand {d : Bool} (h : Below w d rest) : Reactor.inHand { x with stack := rest } = [] := by
  cases h with
  | plain h => cases h <;> rfl
  | looping h => rfl

theorem inHand_life (h : ∀ f ∈ x.stack, ∃ g, f = .life g) : x.inHand = [] := by
  unfold Reactor.inHand
  split
  · rename_i r v st hst
    obtain ⟨g, hg⟩ := h (.io (.executeIo r)) (hst ▸ List.mem_cons_self)
    cases hg
  · rfl

/-- A request that asks for a buffer while others are queued joins them, unless it is the first of them. -/
theorem execute_replay {r : Ref} {fs : List IoFrame} {log : List (Fifo.Event Ref)} (hwf : x.pool.WF)
    (h : Working w x) (hst : x.stack = .io (.executeIo r) :: rest)
    (hdone : Done w { x with stack := rest } (.executeIo r) y fs)
    (hq : Fifo.replay [] log = some (x.inHand ++ x.pendingIo)) :
    Fifo.replay [] (log ++ SpdkBufferPool.events x.pool r) =
      some (Reactor.inHand { y with stack := fs.map .io ++ rest } ++ y.pendingIo) := by
  simp only [Working, hst] at h
  obtain ⟨hbelow, hd, hfree⟩ := h
  have hnone : x.drainingPendingIo = false → x.inHand = [] := by
    intro hn
    rw [hn] at hbelow
    unfold Reactor.inHand
    rw [hst]
    cases hbelow with
    | plain hb => cases hb <;> rfl
  have hloop : x.pool.freeIndexes = [] → x.drainingPendingIo = false := by
    intro hf
    by_contra hn
    exact hfree (by simpa using hn) hf
  -- the request is off the stack, and on `pending_io` if it has starved
  have hafter : (x.pool.initialized = true → x.pool.freeIndexes ≠ []) →
      Reactor.inHand { y with stack := fs.map .io ++ rest } ++ y.pendingIo = x.pendingIo := by
    intro hsome
    cases hdone with
    | parked r dma y fs hp =>
      cases hp with
      | starved hini hno => exact absurd hno (hsome hini)
      | waiting | retried => exact congrArg (· ++ x.pendingIo) (hbelow.inHand (x := x))
      | failed => rfl
    | accepted => exact congrArg (· ++ x.pendingIo) (hbelow.inHand (x := x))
  rcases SpdkBufferPool.tryAcquire_cases hwf with ⟨hini, hacq⟩ | ⟨hini, hno, hacq⟩ | ⟨k, free, hini, hk, -, -, hacq⟩
  · have hf : x.pool.freeIndexes = [] := by rw [hwf.emptied hini]
    rw [hafter (fun hi => absurd (hini.symm.trans hi) (by simp))]
    simpa [SpdkBufferPool.events, hacq, hnone (hloop hf)] using hq
  · rw [hnone (hloop hno)] at hq
    simp only [SpdkBufferPool.events, hacq]
    rw [Fifo.replay_snoc hq, Fifo.next, List.nil_append, Option.some.injEq]
    cases hdone with
    | parked r dma y fs hp =>
      cases hp with
      | starved => exact (congrArg (· ++ (x.pendingIo ++ [r])) (hbelow.inHand (x := x))).symm
      | waiting hf | retried hf => exact absurd hno hf
      | failed error hf =>
        rcases hf with hf | hf
        · exact absurd (hini.symm.trans hf) (by simp)
        · exact absurd hno hf
    | accepted r k free dma c hi hf => exact absurd (hno.symm.trans hf) (by simp)
  · have hf : x.pool.freeIndexes ≠ [] := by rw [hk]; simp
    rw [hafter fun _ => hf]
    simp only [SpdkBufferPool.events, hacq]
    rw [Fifo.replay_snoc hq]
    cases hn : x.drainingPendingIo with
    | false =>
      -- a buffer is free, so none is queued
      rw [hnone hn, (hd hn).resolve_right hf]
      rfl
    | true =>
      rw [hn] at hbelow
      cases hbelow with
      | looping hb =>
        rw [show x.inHand = [r] by simp [Reactor.inHand, hst]]
        simp [Fifo.next]

/-- A step that executes no request leaves the queue, in hand or not. -/
theorem acted_inHand {a : Action} (hcalm : s.Calm) (h : Working v (s.reactor v)) (ha : Acted s v a y)
    (hnot : ∀ c r rest, a = .reactor v c → (s.reactor v).stack ≠ .io (.executeIo r) :: rest) :
    y.inHand ++ y.pendingIo = (s.reactor v).inHand ++ (s.reactor v).pendingIo := by
  have hidle : (s.reactor v).stack = [] → (s.reactor v).inHand = [] := by
    intro hst
    simp [Reactor.inHand, hst]
  cases ha with
  | same | dispatch | posted | moved => rfl
  | message m rest hst hq =>
    rw [hidle hst]
    cases m <;> rfl
  | completion k success c hst => rw [hidle hst]; rfl
  | ioWait k r hst => rw [hidle hst]; rfl
  | event c rc error hst => rw [hidle hst]; rfl
  | io c f rest y fs hst hdone =>
    have hold : (s.reactor v).inHand = [] := by
      unfold Reactor.inHand
      split
      · rename_i r v' st hst'
        exact absurd hst' (hnot c r _ rfl)
      · rfl
    rw [hold]
    simp only [Working, hst] at h
    cases hdone with
    | dispatched =>
      obtain ⟨rfl, -⟩ := h
      rfl
    | parked r | accepted r => exact absurd hst (hnot c r rest rfl)
    | completed r success error fs hfs =>
      obtain ⟨st, rfl, -⟩ := h
      rcases hfs with rfl | rfl <;> rfl
    | notified b =>
      obtain ⟨st, rfl, -⟩ := h
      rfl
    | nested => exact congrArg (· ++ (s.reactor v).pendingIo) (h.inHand (x := s.reactor v))
    | popped r tail hp =>
      rw [show (s.reactor v).pendingIo = r :: tail from hp]
      rfl
    | drained =>
      exact congrArg (· ++ (s.reactor v).pendingIo) ((Below.plain (w := v) h.2).inHand (x := s.reactor v))
    | _ => rfl
  | life c f rest y fs hst htended =>
    simp only [Working, hst] at h
    have hold : (s.reactor v).inHand = [] := by simp [Reactor.inHand, hst]
    have hf := hcalm v f (hst ▸ List.mem_cons_self)
    have hnew : ∀ (fs : List LifeFrame) (z : Reactor), Reactor.inHand { z with stack := fs.map .life ++ rest } = [] := by
      intro fs z
      refine inHand_life fun g hg => ?_
      rcases List.mem_append.1 hg with hg | hg
      · obtain ⟨g', -, rfl⟩ := List.mem_map.1 hg
        exact ⟨g', rfl⟩
      · exact h.1 g hg
    rw [hold]
    cases htended with
    | quiet f fs => rw [hnew fs]
    | posted f fs hfs m g => exact congrArg (· ++ (s.reactor v).pendingIo) (hnew fs { s.reactor v with queue := _ })
    | setUp pool dma bytes ioChannel channelHeld error =>
      exact congrArg (· ++ (s.reactor v).pendingIo) (hnew [.onIoWorkerInitialized error] { s.reactor v with
        pool, dma, dmaPoolAllocatedBytes := bytes, ioChannel, channelHeld })
    | own | cut | flushed | flushedAll | released => exact absurd trivial hf
  | reached u c f rest y hu hst hreached => cases hreached <;> rfl

/-- **Every step keeps the log**: it leads to the request in hand and `pending_io`. -/
theorem step_replay (ht : Tracks s κ) (hc : Consistent e κ) (hcalm : s.Calm) (h : Working w (s.reactor w))
    {log : List (Fifo.Event Ref)} (hq : Fifo.replay [] log = some ((s.reactor w).inHand ++ (s.reactor w).pendingIo))
    {a : Action} (hs : step e s a = some s') :
    Fifo.replay [] (log ++ leaseEvents w s a) = some ((s'.reactor w).inHand ++ (s'.reactor w).pendingIo) := by
  by_cases hexec : ∃ c r rest, a = .reactor w c ∧ (s.reactor w).stack = .io (.executeIo r) :: rest
  · obtain ⟨c, r, rest, rfl, hst⟩ := hexec
    simp only [step] at hs
    split at hs
    · obtain ⟨y, fs, hreactor, hdone⟩ := reactorStep_io ht hc hst hs
      have hnext := execute_replay (ht.tidy.reactor w).pool h hst hdone hq
      rw [hreactor, Function.update_self]
      simpa only [leaseEvents, hst, if_true] using hnext
    · cases hs
  · have hnot : ∀ c r rest, a = .reactor w c → (s.reactor w).stack ≠ .io (.executeIo r) :: rest := by
      intro c r rest ha hst
      exact hexec ⟨c, r, rest, ha, hst⟩
    have hnone : leaseEvents w s a = [] := by
      unfold leaseEvents
      split
      · rename_i v c
        split
        · rename_i r rest hst
          refine if_neg fun hv => ?_
          subst hv
          exact hnot c r rest rfl hst
        · rfl
      · rfl
    rw [hnone, List.append_nil, hq, acted_inHand hcalm h (step_acted ht hc hs w) hnot]

/-! ## Between callbacks -/

/-- The requests posted to be retried. -/
def Reactor.retries (x : Reactor) : List Ref :=
  x.queue.filterMap fun
    | .retryIo r => some r
    | _ => none

/-- The requests a worker keeps: starved, with SPDK, and waiting for a retry callback. -/
def Reactor.kept (x : Reactor) : List Ref :=
  x.pendingIo ++ (x.inFlight.map Command.request ++ (x.ioWait ++ x.retries))

theorem retries_sublist (queue : List Msg) :
    (queue.filterMap fun | .retryIo r => some r | _ => none).Sublist ((queue.flatMap Msg.entries).map Prod.fst) := by
  induction queue with
  | nil => exact .slnil
  | cons m queue ih =>
    rw [List.flatMap_cons, List.map_append]
    cases m with
    | retryIo r => exact ih.cons_cons r
    | _ => exact ih.trans (List.sublist_append_right _ _)

theorem retries_message {r : Ref} (h : r ∈ x.retries) : .retryIo r ∈ x.queue := by
  obtain ⟨m, hm, heq⟩ := List.mem_filterMap.1 h
  cases m <;> cases heq
  exact hm

/-- No request is kept twice. -/
theorem kept_count (ht : Tracks s κ) (r : Ref) : (s.reactor w).kept.count r ≤ 1 := by
  have honce := List.nodup_iff_count_le_one.1 (ht.ledger.once (.worker w)) r
  have hretries := (retries_sublist (s.reactor w).queue).count_le r
  have hkeys : ∀ (rs : List Ref), (rs.map fun r => ((r, Stage.queued) : Ref × Stage)).map Prod.fst = rs := by
    intro rs
    simp [Function.comp_def]
  have hcommands : ((s.reactor w).inFlight.map fun c => ((c.request, Stage.inFlight c) : Ref × Stage)).map Prod.fst =
      (s.reactor w).inFlight.map Command.request := by
    simp [Function.comp_def]
  simp only [shown, Reactor.entries, List.map_append, List.count_append, hkeys, hcommands] at honce
  simp only [Reactor.kept, Reactor.retries, List.count_append]
  omega

/-- Between callbacks a request on a worker is kept, or in a dispatch its worker has not come to. -/
theorem entry_kept {r : Ref} {st : Stage} (hidle : x.stack = []) (h : (r, st) ∈ x.entries) :
    (r ∈ x.dispatched ∨ r ∈ x.kept) ∧ (st.Leases → ∃ c ∈ x.inFlight, c.request = r) := by
  simp only [Reactor.entries, hidle, List.flatMap_nil, List.nil_append, List.mem_append, List.mem_flatMap, List.mem_map,
    Prod.mk.injEq] at h
  simp only [Reactor.kept, List.mem_append]
  rcases h with ⟨m, hm, hr⟩ | ⟨r', hr', rfl, rfl⟩ | ⟨c, hc, rfl, rfl⟩ | ⟨r', hr', rfl, rfl⟩
  · cases m with
    | executeWorkerBatch d =>
      obtain ⟨r', hr', heq⟩ := List.mem_map.1 hr
      cases heq
      exact ⟨.inl (List.mem_append_left _ (List.mem_flatMap.2 ⟨_, hm, hr'⟩)), fun hl => hl.elim⟩
    | retryIo r' =>
      cases List.mem_singleton.1 hr
      exact ⟨.inr (.inr (.inr (.inr (List.mem_filterMap.2 ⟨_, hm, rfl⟩)))), fun hl => hl.elim⟩
    | «open» | initializeIoWorker | beginShutdown | shutdownIoWorker | finishShutdown => cases hr
  · exact ⟨.inr (.inl hr'), fun hl => hl.elim⟩
  · exact ⟨.inr (.inr (.inl (List.mem_map.2 ⟨c, hc, rfl⟩))), fun _ => ⟨c, hc, rfl⟩⟩
  · exact ⟨.inr (.inr (.inr (.inl hr'))), fun hl => hl.elim⟩

/-- What holds of a worker before the teardown. -/
structure Backpressure (e : Env) (device : Nat → UInt8) (w : Nat) (log : List (Fifo.Event Ref)) (s : Sys) : Prop where
  requests : ∃ κ, Quiet e device (· ≠ .released) s κ ∧ Unstarted s κ
  working : Working w (s.reactor w)
  primed : Primed (s.reactor w)
  replay : Fifo.replay [] log = some ((s.reactor w).inHand ++ (s.reactor w).pendingIo)

theorem init_backpressure (device : Nat → UInt8) (w : Nat) : Backpressure e device w [] (Sys.init device) := by
  refine ⟨⟨_, init_quiet device _, init_unstarted device⟩, ?_, ?_, ?_⟩
  · rcases eq_or_ne w 0 with rfl | hw
    · exact ⟨rfl, .inl rfl⟩
    · simp [Sys.init, hw, Working, Reactor.Drained]
  · obtain ⟨-, -, hpool, -⟩ := init_reactor device w
    refine ⟨fun hp => ?_, fun hi => ?_⟩
    · rcases eq_or_ne w 0 with rfl | hw
      · exact absurd rfl hp
      · simp [Sys.init, hw] at hp
    · rw [hpool] at hi
      cases hi
  · rcases eq_or_ne w 0 with rfl | hw
    · rfl
    · simp [Sys.init, hw, Reactor.inHand, Fifo.replay]

theorem step_backpressure {device : Nat → UInt8} {log : List (Fifo.Event Ref)} {a : Action} (hcalm : s.Calm)
    (h : Backpressure e device w log s) (hs : step e s a = some s') :
    Backpressure e device w (log ++ leaseEvents w s a) s' := by
  obtain ⟨⟨κ, hq, hu⟩, hw, hp, hr⟩ := h
  obtain ⟨κ', hm, hq'⟩ := quiet_step hcalm (fun m _ => Classical.or_iff_not_imp_left.2 id) hq hs
  have hacted := acted_working hcalm hw hp (step_acted hq.tracks hq.consistent hs w)
  exact ⟨⟨κ', hq', step_unstarted hq.tracks hq.consistent hm hu hs⟩, hacted.1, hacted.2,
    step_replay hq.tracks hq.consistent hcalm hw hr hs⟩

/-- **Backpressure loses nothing and is fair**: on every worker, before the teardown and for every run, between two
callbacks each started request that is not completed is kept once: in `pending_io`, with SPDK and a leased buffer,
or for a retry callback and without a buffer. If `pending_io` is not empty no buffer is available and all are those
of commands in flight. Requests that starved lease their buffers in the order they were queued, and none leases
one past a queue. -/
theorem backpressure {device : Nat → UInt8} {as : List Action} (h : runFrom (step e) (Sys.init device) as = some s)
    (hcalm : s.ctx.shutdownStarted = false) (hidle : (s.reactor w).stack = []) :
    (∀ b i, i < (s.batch b).items.length → (s.request (b, i)).worker = w → (s.request (b, i)).started = true →
      (s.request (b, i)).completed = false → (s.reactor w).kept.count (b, i) = 1) ∧
    (∀ c ∈ (s.reactor w).inFlight, ∃ k, (s.request c.request).bufferIndex = some k ∧ (s.reactor w).pool.Leased k) ∧
    (∀ r ∈ (s.reactor w).pendingIo ++ ((s.reactor w).ioWait ++ (s.reactor w).retries),
      (s.request r).bufferIndex = none) ∧
    ((s.reactor w).pendingIo ≠ [] → (s.reactor w).pool.available = 0 ∧ (s.reactor w).inFlight ≠ [] ∧
      ∀ k < (s.reactor w).pool.buffers.length, ∃ c ∈ (s.reactor w).inFlight,
        (s.request c.request).bufferIndex = some k) ∧
    let log := observed (step e) (leaseEvents w) (Sys.init device) as
    Fifo.joined log = Fifo.fromQueue [] log ++ (s.reactor w).pendingIo ∧
    ∀ log1 r log2, log = log1 ++ .served r :: log2 →
      ∃ queue, Fifo.replay [] log1 = some queue ∧ (queue = [] ∨ queue.head? = some r) := by
  obtain ⟨-, ⟨κ, hquiet, hunstarted⟩, hworking, hprimed, hreplay⟩ := calm_observed (leaseEvents w)
    (init_backpressure device w) (fun log s a s' hs hb _ hstep => step_backpressure hs hb hstep) (guarded_true _ as)
    h hcalm
  have hp := hquiet.pooled fun hr => hr rfl
  obtain ⟨-, ht, hc, -⟩ := hquiet
  simp only [Working, hidle] at hworking
  have hbufferless : ∀ r, (r, Stage.queued) ∈ (s.reactor w).entries → (s.request r).bufferIndex = none := by
    intro r hr
    have hfits := hc.fits r
    rw [(ht.entry hr).1, ht.request] at hfits
    exact hfits.2.2.1
  have hlog : Fifo.replay [] (observed (step e) (leaseEvents w) (Sys.init device) as) =
      some (s.reactor w).pendingIo := by
    rw [hreplay, show (s.reactor w).inHand = [] by simp [Reactor.inHand, hidle], List.nil_append]
  refine ⟨fun b i hi hw hstarted hopen => ?_, fun c hcmd => ?_, fun r hr => ?_, fun hpending => ?_, ?_, ?_⟩
  · have hposted : ¬ (κ.stage (b, i)).Unposted := by
      intro hno
      rw [hunstarted.unposted _ hno] at hstarted
      cases hstarted
    have hdone : κ.stage (b, i) ≠ .completed := by
      rw [Ne, ← completed_iff hc (by rw [ht.batch]; exact hi), ht.request, hopen]
      nofun
    have hentry := stage_entry ht hposted hdone
    rw [hw] at hentry
    rcases (entry_kept hidle hentry).1 with hd | hk
    · rw [hunstarted.dispatched w _ hd] at hstarted
      cases hstarted
    · exact Nat.le_antisymm (kept_count ht _) (List.count_pos_iff.2 hk)
  · obtain ⟨hstage, hw⟩ := ht.entry (entries_command hcmd)
    have hfits := hc.fits c.request
    rw [hstage, ht.request] at hfits
    obtain ⟨k, hk⟩ := Option.ne_none_iff_exists'.1 hfits.2.2.1
    have hleased := hp.lease c.request k (by rw [hstage]; trivial) (by rw [ht.request]; exact hk)
    rw [ht.pool, ht.request, show (s.request c.request).worker = w from hw] at hleased
    exact ⟨k, hk, hleased⟩
  · refine hbufferless r ?_
    rcases List.mem_append.1 hr with hr | hr
    · exact entries_pending hr
    · rcases List.mem_append.1 hr with hr | hr
      · exact entries_waiting hr
      · exact entries_message (retries_message hr) (List.mem_singleton_self _)
  · have hnone : (s.reactor w).pool.freeIndexes = [] := hworking.2.resolve_left hpending
    have hall : ∀ k < (s.reactor w).pool.buffers.length, ∃ c ∈ (s.reactor w).inFlight,
        (s.request c.request).bufferIndex = some k := by
      intro k hk
      -- every buffer is leased, and its owner is in flight
      have hleased : (κ.pool w).Leased k := by
        rw [ht.pool]
        by_contra hno
        have hfree := ((ht.tidy.reactor w).pool.free_iff k).2 ⟨hk, hno⟩
        rw [hnone] at hfree
        cases hfree
      obtain ⟨r, hl, hw, hb⟩ := hp.owned w k hleased
      rw [ht.request] at hw hb
      have hentry := stage_entry ht (r := r) (fun hno => ?_) fun hdone => ?_
      · rw [hw] at hentry
        obtain ⟨c, hcmd, rfl⟩ := (entry_kept hidle hentry).2 hl
        exact ⟨c, hcmd, hb⟩
      · revert hl hno
        cases κ.stage r <;> simp [Stage.Leases, Stage.Unposted]
      · rw [hdone] at hl
        exact hl
    refine ⟨congrArg List.length hnone, fun hempty => ?_, hall⟩
    have hpos := List.length_pos_of_ne_nil (hprimed.buffers (hprimed.pending hpending))
    obtain ⟨c, hcmd, -⟩ := hall 0 hpos
    rw [hempty] at hcmd
    cases hcmd
  · simpa using Fifo.replay_order hlog
  · intro log1 r log2 heq
    rw [heq] at hlog
    exact Fifo.replay_served hlog

/-- Two pages are read with one buffer: the second starves. -/
def starvedRun : List Action :=
  openRun ++ submitRun 0 .read [⟨some ⟨0, 0⟩, 2, 0, 2⟩, ⟨some ⟨0, 2⟩, 2, 2, 2⟩] ++
  [.reactor 0 .message, .reactor 0 .next, .reactor 0 (.submit 0 0 0), .reactor 0 .next, .reactor 0 (.submit 0 0 0),
    .reactor 0 .next]

theorem backpressure_starved : ∃ s, runFrom (step smallEnv) (Sys.init Nat.toUInt8) starvedRun = some s ∧
    (s.reactor 0).pendingIo = [(0, 1)] ∧ (s.reactor 0).kept.count (0, 1) = 1 ∧ (s.reactor 0).pool.available = 0 := by
  have hrun : runFrom (step smallEnv) (Sys.init Nat.toUInt8) starvedRun = some _ := rfl
  obtain ⟨h1, -, -, h4, -⟩ := backpressure (w := 0) hrun rfl rfl
  exact ⟨_, hrun, rfl, h1 0 1 (by decide) rfl rfl rfl, (h4 nofun).1⟩

end SpdkBdevContext
end SpdkConnector
