import SpdkConnector.Context
import Mathlib.Logic.Relation

/-!
# The life of a request

What `submit_batch_and_wait` and the reactors do to requests, without saying where in the code a request
is: it is held by its caller, queued on its worker, in flight with a leased buffer, called back, about to
be completed, completed. `Core` is the part of the context these moves speak about; `Move` is one move.

`Consistent` is what every move keeps: each stage's bookkeeping, `remaining` as the number of requests not
completed, and each result as what SPDK reported for its request.
-/

namespace SpdkConnector
namespace SpdkBdevContext

inductive Stage where
  /-- Not built. -/
  | absent
  /-- In its caller's hands. -/
  | held
  /-- On its worker without a buffer: posted, starved or waiting to be retried. -/
  | queued
  | inFlight (c : Command)
  /-- Called back. -/
  | reported (success : Bool)
  /-- About to be completed. -/
  | closing (success : Bool)
  | completed
deriving DecidableEq

/-- What may have happened on the way to a state. -/
inductive Mark where
  /-- Some pool has been released. -/
  | released
  /-- Some batch was submitted that overlaps a live one. -/
  | clashed
  /-- Some dispatch was posted. -/
  | posted
deriving DecidableEq

structure Core where
  request : Ref → IoRequest
  batch : Nat → IoBatchRequest
  pool : Nat → SpdkBufferPool
  dma : Nat → Nat → Nat → UInt8
  device : Nat → UInt8
  stage : Ref → Stage
  marks : Mark → Prop

/-- Success as the caller may rely on it: SPDK reported it, and a read's bytes were copied. -/
def IoRequest.Succeeded (q : IoRequest) : Prop :=
  q.reported = some true ∧ (q.operation = .read → q.copied ≠ none)

/-- The bytes of the bdev an item covers. -/
def ItemBytes (it : IoBatchItem) (a : Nat) : Prop :=
  it.byteOffset ≤ a ∧ a < it.byteOffset + it.physicalLength

/-- Two items that may not run at the same time: one is a write, and they share a byte. -/
def Conflict (op op' : Operation) (it it' : IoBatchItem) : Prop :=
  (op = .write ∨ op' = .write) ∧ ∃ a, ItemBytes it a ∧ ItemBytes it' a

/-- A batch whose caller is still in `submit_batch_and_wait`. -/
def CallerPc.Live (pc : CallerPc) : Prop := pc ≠ .absent ∧ pc ≠ .returned

/-- No item of a new batch conflicts with another of its items or with an item of a live batch. -/
def NoOverlap (batch : Nat → IoBatchRequest) (op : Operation) (items : List IoBatchItem) : Prop :=
  (∀ (i j : Nat) it it', items[i]? = some it → items[j]? = some it' → i ≠ j → ¬ Conflict op op it it') ∧
  ∀ b it it', (batch b).caller.Live → it ∈ items → it' ∈ (batch b).items →
    ¬ Conflict op (batch b).operation it it'

/-! ## Moves -/

/-- Bookkeeping that no result depends on. -/
def SameIo (q q' : IoRequest) : Prop :=
  q'.worker = q.worker ∧ q'.resultIndex = q.resultIndex ∧ q'.operation = q.operation ∧ q'.item = q.item ∧
  q'.bufferIndex = q.bufferIndex ∧ q'.completed = q.completed ∧ q'.completions = q.completions ∧
  q'.reported = q.reported ∧ q'.copied = q.copied

/-- A request as `submit_batch_and_wait` builds it. -/
structure Fresh (q : IoRequest) (i : Nat) (op : Operation) (it : IoBatchItem) : Prop where
  resultIndex : q.resultIndex = i
  operation : q.operation = op
  item : q.item = it
  bufferIndex : q.bufferIndex = none
  completed : q.completed = false
  completions : q.completions = 0
  reported : q.reported = none
  copied : q.copied = none

/-- Where a caller may go without touching a request. -/
structure CallerMove (b : IoBatchRequest) (pc : CallerPc) : Prop where
  live : b.caller.Live
  present : pc ≠ .absent
  returning : pc = .returning → b.remaining = 0
  returned : pc = .returned ↔ b.caller = .returning

def Command.length (e : Env) (c : Command) : Nat := c.blockCount * e.geometry.blockSize
def Command.start (e : Env) (c : Command) : Nat := c.blockOffset * e.geometry.blockSize

/-- The command `execute_io_on_worker` submits for a request. -/
def commandFor (e : Env) (r : Ref) (q : IoRequest) (buffer : Nat) : Command :=
  ⟨r, q.operation, buffer, q.item.byteOffset / e.geometry.blockSize,
    q.item.physicalLength / e.geometry.blockSize, 0, false⟩

/-- The pool after `release` of an index. -/
def poolAfterRelease (p : SpdkBufferPool) : Option Nat → SpdkBufferPool
  | none => p
  | some k => (p.release k).2

@[simp] def Core.setStage (κ : Core) (r : Ref) (st : Stage) : Core :=
  { κ with stage := Function.update κ.stage r st }
@[simp] def Core.setRequest (κ : Core) (r : Ref) (q : IoRequest) : Core :=
  { κ with request := Function.update κ.request r q }
@[simp] def Core.setBatch (κ : Core) (b : Nat) (x : IoBatchRequest) : Core :=
  { κ with batch := Function.update κ.batch b x }
@[simp] def Core.setPool (κ : Core) (w : Nat) (p : SpdkBufferPool) : Core :=
  { κ with pool := Function.update κ.pool w p }
@[simp] def Core.mark (κ : Core) (m : Mark) (p : Prop) : Core :=
  { κ with marks := fun m' => κ.marks m' ∨ m' = m ∧ p }
@[simp] def Core.setDma (κ : Core) (w buffer : Nat) (bytes : Nat → UInt8) : Core :=
  { κ with dma := Function.update κ.dma w (Function.update (κ.dma w) buffer bytes) }

/-- A buffer is leased, filled for a write, and its command is in flight (:783-845). -/
def Core.accept (κ : Core) (e : Env) (r : Ref) (k : Nat) (rest : List Nat) : Core :=
  let q := κ.request r
  let p := κ.pool q.worker
  let buffer := p.buffers.getD k 0
  (((κ.setStage r (.inFlight (commandFor e r q buffer))).setRequest r { q with bufferIndex := some k }).setPool
    q.worker { p with freeIndexes := rest, inUse := p.inUse.set k true }).setDma q.worker buffer
      (if q.operation = .write then stagedByte (κ.batch r.1).memory q.item (κ.dma q.worker buffer)
        else κ.dma q.worker buffer)

/-- The logical bytes in the request's staging buffer. -/
def Core.stagedBytes (κ : Core) (r : Ref) (k : Nat) : Bytes :=
  let q := κ.request r
  (List.range q.item.logicalLength).map (κ.dma q.worker ((κ.pool q.worker).buffers.getD k 0))

def Core.copy (κ : Core) (r : Ref) (k : Nat) : Core :=
  (κ.setRequest r { κ.request r with copied := some (κ.stagedBytes r k) }).setBatch r.1
    { κ.batch r.1 with
      memory := copyToCaller (κ.batch r.1).memory (κ.request r).item (κ.stagedBytes r k) }

def Core.finish (κ : Core) (r : Ref) (success : Bool) : Core :=
  let q := κ.request r
  ((κ.setStage r (.closing success)).setRequest r { q with bufferIndex := none }).setPool q.worker
    (poolAfterRelease (κ.pool q.worker) q.bufferIndex)

def Core.complete (κ : Core) (r : Ref) (success : Bool) (error : String) : Core :=
  let q := κ.request r
  let b := κ.batch r.1
  ((κ.setStage r .completed).setRequest r
    { q with completions := q.completions + 1, completed := true }).setBatch r.1
      { b with results := b.results.set q.resultIndex ⟨success, error⟩, remaining := sub64 b.remaining 1 }

inductive Move (e : Env) (κ : Core) : Core → Prop
  /-- The batch is built (:696-724). -/
  | submit (b : Nat) (op : Operation) (items : List IoBatchItem) (memory : Nat → Nat → UInt8)
      (pc : CallerPc) (req : Nat → IoRequest)
      (hnew : (κ.batch b).caller = .absent) (hlen : items.length < 2 ^ 64)
      (hok : ∀ it ∈ items, it.Ok e.geometry) (hlive : pc.Live) (hpc : pc ≠ .returning)
      (hreq : ∀ i it, items[i]? = some it → Fresh (req i) i op it) :
      Move e κ { κ.mark .clashed (¬ NoOverlap κ.batch op items) with
        batch := Function.update κ.batch b
          ⟨op, items, items.length, List.replicate items.length ⟨false, ""⟩, memory, pc⟩
        request := fun r => if r.1 = b ∧ r.2 < items.length then req r.2 else κ.request r
        stage := fun r => if r.1 = b ∧ r.2 < items.length then .held else κ.stage r }
  /-- A dispatch is posted to its worker. -/
  | post (rs : List Ref) (h : ∀ r ∈ rs, κ.stage r = .held) :
      Move e κ { κ.mark .posted True with stage := fun r => if r ∈ rs then .queued else κ.stage r }
  | note (r : Ref) (q : IoRequest) (h : SameIo (κ.request r) q) : Move e κ (κ.setRequest r q)
  /-- Bytes are staged in a buffer that is not leased. -/
  | scribble (w buffer : Nat) (bytes : Nat → UInt8)
      (h : ∀ k, (κ.pool w).Leased k → (κ.pool w).buffers.getD k 0 ≠ buffer) :
      Move e κ (κ.setDma w buffer bytes)
  /-- SPDK accepts the command. -/
  | accept (r : Ref) (k : Nat) (rest : List Nat) (h : κ.stage r = .queued)
      (hini : (κ.pool (κ.request r).worker).initialized = true)
      (hfree : (κ.pool (κ.request r).worker).freeIndexes = k :: rest) :
      Move e κ (κ.accept e r k rest)
  | transferWrite (r : Ref) (c : Command) (n : Nat) (h : κ.stage r = .inFlight c)
      (hop : c.operation = .write) (hle : c.moved + n ≤ c.length e) :
      Move e κ { κ.setStage r (.inFlight { c with moved := c.moved + n }) with
        device := fun a => if c.start e + c.moved ≤ a ∧ a < c.start e + c.moved + n then
          κ.dma (κ.request r).worker c.buffer (a - c.start e) else κ.device a }
  | transferRead (r : Ref) (c : Command) (n : Nat) (h : κ.stage r = .inFlight c)
      (hop : c.operation = .read) (hle : c.moved + n ≤ c.length e) :
      Move e κ ((κ.setStage r (.inFlight { c with moved := c.moved + n })).setDma (κ.request r).worker c.buffer
        fun j => if c.moved ≤ j ∧ j < c.moved + n then κ.device (c.start e + j)
          else κ.dma (κ.request r).worker c.buffer j)
  | disturbWrite (r : Ref) (c : Command) (noise : Nat → UInt8) (h : κ.stage r = .inFlight c)
      (hop : c.operation = .write) :
      Move e κ { κ.setStage r (.inFlight { c with disturbed := true }) with
        device := fun a => if c.start e ≤ a ∧ a < c.start e + c.length e then noise a else κ.device a }
  | disturbRead (r : Ref) (c : Command) (noise : Nat → UInt8) (h : κ.stage r = .inFlight c)
      (hop : c.operation = .read) :
      Move e κ ((κ.setStage r (.inFlight { c with disturbed := true })).setDma (κ.request r).worker c.buffer
        fun j => if j < c.length e then noise j else κ.dma (κ.request r).worker c.buffer j)
  | report (r : Ref) (c : Command) (success : Bool) (h : κ.stage r = .inFlight c)
      (hs : success = true → c.moved = c.length e ∧ c.disturbed = false) :
      Move e κ ((κ.setStage r (.reported success)).setRequest r
        { κ.request r with reported := some success })
  /-- A read's bytes go to the caller, and the lease is given back (:913-919). -/
  | deliver (r : Ref) (k : Nat) (h : κ.stage r = .reported true) (hop : (κ.request r).operation = .read)
      (hk : (κ.request r).bufferIndex = some k) (hl : (κ.pool (κ.request r).worker).Leased k) :
      Move e κ ((κ.copy r k).finish r true)
  /-- The lease is given back without a copy (:919). -/
  | finish (r : Ref) (success success' : Bool) (h : κ.stage r = .reported success)
      (hs : success' = true ↔ success = true ∧ (κ.request r).operation ≠ .read) : Move e κ (κ.finish r success')
  /-- A request that will get no command: its submission failed, or it is flushed. -/
  | abandon (r : Ref) (h : κ.stage r = .queued ∨ κ.stage r = .held) : Move e κ (κ.setStage r (.closing false))
  /-- The critical section of `complete_request`. -/
  | complete (r : Ref) (success : Bool) (error : String) (h : κ.stage r = .closing success) :
      Move e κ (κ.complete r success error)
  | caller (b : Nat) (pc : CallerPc) (h : CallerMove (κ.batch b) pc) :
      Move e κ (κ.setBatch b { κ.batch b with caller := pc })
  | fillPool (w : Nat) (bufferSize bufferAlignment : Nat) (buffers : List Nat)
      (h : (κ.pool w).initialized = false) (hnd : buffers.Nodup) :
      Move e κ { κ.setPool w (SpdkBufferPool.filled bufferSize bufferAlignment buffers) with
        dma := Function.update κ.dma w fun _ _ => 0 }
  | releasePool (w : Nat) : Move e κ ((κ.setPool w {}).mark .released True)

abbrev Moves (e : Env) : Core → Core → Prop := Relation.ReflTransGen (Move e)

/-! ## Consistency -/

/-- The bookkeeping of a request in a stage. -/
def Stage.Fits (r : Ref) (q : IoRequest) : Stage → Prop
  | .absent => True
  | .held | .queued => q.completed = false ∧ q.completions = 0 ∧ q.bufferIndex = none ∧
      q.reported = none ∧ q.copied = none
  | .inFlight c => q.completed = false ∧ q.completions = 0 ∧ q.bufferIndex ≠ none ∧
      q.reported = none ∧ q.copied = none ∧ c.request = r ∧ c.operation = q.operation
  | .reported success => q.completed = false ∧ q.completions = 0 ∧ q.bufferIndex ≠ none ∧
      q.reported = some success ∧ q.copied = none
  | .closing success => q.completed = false ∧ q.completions = 0 ∧ q.bufferIndex = none ∧
      (success = true ↔ q.Succeeded)
  | .completed => q.completed = true ∧ q.completions = 1 ∧ q.bufferIndex = none

def Stage.Open : Stage → Prop
  | .completed => False
  | _ => True

instance : DecidablePred Stage.Open := fun st => by
  cases st <;> unfold Stage.Open <;> infer_instance

/-- The number of requests of batch `b` that are not completed. -/
def openCount (stage : Ref → Stage) (b count : Nat) : Nat :=
  (List.range count).countP fun i => decide (stage (b, i)).Open

structure Consistent (e : Env) (κ : Core) : Prop where
  absent_iff : ∀ b i, κ.stage (b, i) = .absent ↔ (κ.batch b).items.length ≤ i
  idle_items : ∀ b, (κ.batch b).caller = .absent → (κ.batch b).items = []
  built : ∀ b i it, (κ.batch b).items[i]? = some it →
    (κ.request (b, i)).item = it ∧ (κ.request (b, i)).resultIndex = i ∧
    (κ.request (b, i)).operation = (κ.batch b).operation
  item_ok : ∀ b, ∀ it ∈ (κ.batch b).items, it.Ok e.geometry
  size : ∀ b, (κ.batch b).items.length < 2 ^ 64
  fits : ∀ r, (κ.stage r).Fits r (κ.request r)
  remaining : ∀ b, (κ.batch b).remaining = openCount κ.stage b (κ.batch b).items.length
  results_length : ∀ b, (κ.batch b).results.length = (κ.batch b).items.length
  result : ∀ b i, κ.stage (b, i) = .completed →
    ∃ x, (κ.batch b).results[i]? = some x ∧ (x.success = true ↔ (κ.request (b, i)).Succeeded)
  returned : ∀ b, (κ.batch b).caller = .returning ∨ (κ.batch b).caller = .returned →
    (κ.batch b).remaining = 0

/-! ## Counting -/

theorem openCount_congr {stage stage' : Ref → Stage} {b n : Nat}
    (h : ∀ i < n, (stage' (b, i)).Open ↔ (stage (b, i)).Open) : openCount stage' b n = openCount stage b n := by
  unfold openCount
  refine List.countP_congr fun i hi => ?_
  simpa using h i (List.mem_range.1 hi)

theorem openCount_le (stage : Ref → Stage) (b n : Nat) : openCount stage b n ≤ n := by
  simpa [openCount] using List.countP_le_length (l := List.range n)

theorem openCount_all {stage : Ref → Stage} {b n : Nat} (h : ∀ i < n, (stage (b, i)).Open) :
    openCount stage b n = n := by
  have hall : ∀ i ∈ List.range n, decide (stage (b, i)).Open = true := by
    intro i hi
    simpa using h i (List.mem_range.1 hi)
  rw [openCount, List.countP_eq_length.2 hall, List.length_range]

theorem openCount_zero {stage : Ref → Stage} {b n : Nat} (h : openCount stage b n = 0) :
    ∀ i < n, ¬ (stage (b, i)).Open := by
  intro i hi
  have := List.countP_eq_zero.1 h i (List.mem_range.2 hi)
  simpa using this

/-- Completing an open request takes one off. -/
theorem openCount_completed {stage : Ref → Stage} {b i : Nat} :
    ∀ {n : Nat}, i < n → (stage (b, i)).Open →
      openCount stage b n = openCount (Function.update stage (b, i) .completed) b n + 1
  | 0, h, _ => absurd h (Nat.not_lt_zero i)
  | n + 1, h, ho => by
    have hsplit : ∀ f : Ref → Stage, openCount f b (n + 1) =
        openCount f b n + if (f (b, n)).Open then 1 else 0 := fun f => by
      simp [openCount, List.range_succ, List.countP_append, List.countP_cons]
    rw [hsplit, hsplit]
    by_cases hin : i = n
    · subst hin
      have hsame : openCount (Function.update stage (b, i) .completed) b i = openCount stage b i :=
        openCount_congr fun j hj => by
          rw [Function.update_of_ne (by simp only [ne_eq, Prod.mk.injEq, true_and]; omega)]
      rw [hsame, if_pos ho, Function.update_self, if_neg (show ¬ Stage.completed.Open from id)]
    · have hlt : i < n := by omega
      have hne : ((b, n) : Ref) ≠ (b, i) := by simp only [ne_eq, Prod.mk.injEq, true_and]; omega
      rw [openCount_completed hlt ho, Function.update_of_ne hne]
      omega

/-! ## Every move keeps consistency -/

section
variable {e : Env} {κ κ' : Core}

/-- Two batches that differ in the caller's bytes at most. -/
def SameBatch (x y : IoBatchRequest) : Prop :=
  y.operation = x.operation ∧ y.items = x.items ∧ y.remaining = x.remaining ∧ y.results = x.results ∧
  y.caller = x.caller

/-- One request goes to another stage that is open if its stage was. -/
theorem Consistent.turn (h : Consistent e κ) {r : Ref} {t : Stage} {q : IoRequest}
    (hb : ∀ b, SameBatch (κ.batch b) (κ'.batch b))
    (hstage : κ'.stage = Function.update κ.stage r t) (hreq : κ'.request = Function.update κ.request r q)
    (habs : t = .absent ↔ κ.stage r = .absent) (hopen : t.Open ↔ (κ.stage r).Open)
    (hsame : q.item = (κ.request r).item ∧ q.resultIndex = (κ.request r).resultIndex ∧
      q.operation = (κ.request r).operation)
    (hdone : κ.stage r = .completed → (q.Succeeded ↔ (κ.request r).Succeeded))
    (hfits : t.Fits r q) : Consistent e κ' := by
  have hst : ∀ r', (κ'.stage r').Open ↔ (κ.stage r').Open := by
    intro r'
    rw [hstage]
    rcases eq_or_ne r' r with rfl | hne
    · simpa using hopen
    · rw [Function.update_of_ne hne]
  refine ⟨fun b i => ?_, fun b hb' => ?_, fun b i it hi => ?_, fun b => ?_, fun b => ?_, fun r' => ?_,
    fun b => ?_, fun b => ?_, fun b i hc => ?_, fun b hb' => ?_⟩
  · rw [hstage, (hb b).2.1, ← h.absent_iff b i]
    rcases eq_or_ne (b, i) r with rfl | hne
    · simpa using habs
    · rw [Function.update_of_ne hne]
  · rw [(hb b).2.1]
    exact h.idle_items b ((hb b).2.2.2.2 ▸ hb')
  · rw [(hb b).2.1] at hi
    rw [hreq, (hb b).1]
    have hbu := h.built b i it hi
    rcases eq_or_ne (b, i) r with rfl | hne
    · simpa [hsame.1, hsame.2.1, hsame.2.2] using hbu
    · rwa [Function.update_of_ne hne]
  · rw [(hb b).2.1]
    exact h.item_ok b
  · rw [(hb b).2.1]
    exact h.size b
  · rw [hstage, hreq]
    rcases eq_or_ne r' r with rfl | hne
    · simpa using hfits
    · rw [Function.update_of_ne hne, Function.update_of_ne hne]
      exact h.fits r'
  · rw [(hb b).2.2.1, (hb b).2.1, h.remaining b]
    exact (openCount_congr fun i _ => hst (b, i)).symm
  · rw [(hb b).2.2.2.1, (hb b).2.1]
    exact h.results_length b
  · have hold : κ.stage (b, i) = .completed := by
      have hno : ¬ (κ.stage (b, i)).Open := fun ho => by
        have := (hst (b, i)).2 ho
        rw [hc] at this
        exact this
      cases hk : κ.stage (b, i) <;> simp_all [Stage.Open]
    obtain ⟨x, hx, hxs⟩ := h.result b i hold
    refine ⟨x, by rw [(hb b).2.2.2.1]; exact hx, ?_⟩
    rw [hreq, hxs]
    rcases eq_or_ne (b, i) r with rfl | hne
    · simpa using (hdone hold).symm
    · rw [Function.update_of_ne hne]
  · rw [(hb b).2.2.1]
    exact h.returned b (by rwa [(hb b).2.2.2.2] at hb')

theorem SameBatch.refl (x : IoBatchRequest) : SameBatch x x := ⟨rfl, rfl, rfl, rfl, rfl⟩

/-- Only stages, requests and batches matter. -/
theorem Consistent.congr (h : Consistent e κ) (hs : κ'.stage = κ.stage) (hr : κ'.request = κ.request)
    (hb : κ'.batch = κ.batch) : Consistent e κ' := by
  obtain ⟨h1, h2, h3, h4, h5, h6, h7, h8, h9, h10⟩ := h
  constructor <;> simpa only [hs, hr, hb]

theorem submit_consistent (h : Consistent e κ) {b : Nat} {op : Operation} {items : List IoBatchItem}
    {memory : Nat → Nat → UInt8} {pc : CallerPc} {req : Nat → IoRequest} {marks : Mark → Prop}
    (hnew : (κ.batch b).caller = .absent) (hlen : items.length < 2 ^ 64)
    (hok : ∀ it ∈ items, it.Ok e.geometry) (hlive : pc.Live) (hpc : pc ≠ .returning)
    (hreq : ∀ i it, items[i]? = some it → Fresh (req i) i op it) :
    Consistent e { κ with
        batch := Function.update κ.batch b
          ⟨op, items, items.length, List.replicate items.length ⟨false, ""⟩, memory, pc⟩
        request := fun r => if r.1 = b ∧ r.2 < items.length then req r.2 else κ.request r
        stage := fun r => if r.1 = b ∧ r.2 < items.length then .held else κ.stage r
        marks := marks } := by
  have hnone : ∀ i, κ.stage (b, i) = .absent := by
    intro i
    rw [h.absent_iff, h.idle_items b hnew]
    simp
  constructor
  · intro c i
    simp only [Function.update_apply]
    by_cases hc : c = b
    · subst hc
      by_cases hi : i < items.length
      · simp [hi]
      · simp [hi, hnone, Nat.not_lt.1 hi]
    · simpa [hc] using h.absent_iff c i
  · intro c
    simp only [Function.update_apply]
    by_cases hc : c = b
    · simp [hc, hlive.1]
    · simpa [hc] using h.idle_items c
  · intro c i it
    simp only [Function.update_apply]
    by_cases hc : c = b
    · subst hc
      intro hi
      simp only [if_true] at hi
      have hf := hreq i it hi
      have hlt : i < items.length := (List.getElem?_eq_some_iff.1 hi).1
      simp [hlt, hf.item, hf.resultIndex, hf.operation]
    · simpa [hc] using h.built c i it
  · intro c
    simp only [Function.update_apply]
    by_cases hc : c = b
    · simpa [hc] using hok
    · simpa [hc] using h.item_ok c
  · intro c
    simp only [Function.update_apply]
    by_cases hc : c = b
    · simpa [hc] using hlen
    · simpa [hc] using h.size c
  · rintro ⟨c, i⟩
    by_cases hc : c = b ∧ i < items.length
    · have hf := hreq i _ (List.getElem?_eq_getElem hc.2)
      simp [hc, Stage.Fits, hf.completed, hf.completions, hf.bufferIndex, hf.reported, hf.copied]
    · simpa only [hc, if_false] using h.fits (c, i)
  · intro c
    simp only [Function.update_apply]
    by_cases hc : c = b
    · subst hc
      simp only [if_true]
      refine (openCount_all fun i hi => ?_).symm
      simp [hi, Stage.Open]
    · simp only [hc, if_false, h.remaining c]
      exact openCount_congr fun i _ => by simp [hc]
  · intro c
    simp only [Function.update_apply]
    by_cases hc : c = b
    · simp [hc]
    · simpa [hc] using h.results_length c
  · intro c i hci
    simp only [Function.update_apply]
    by_cases hc : c = b
    · subst hc
      by_cases hi : i < items.length <;> simp [hi, hnone] at hci
    · simp only [hc, false_and, if_false] at hci ⊢
      exact h.result c i hci
  · intro c
    simp only [Function.update_apply]
    by_cases hc : c = b
    · simp [hc, hlive.2, hpc]
    · simpa [hc] using h.returned c

theorem complete_consistent (h : Consistent e κ) {r : Ref} {success : Bool} {error : String}
    (hr : κ.stage r = .closing success) : Consistent e (κ.complete r success error) := by
  obtain ⟨b, i⟩ := r
  have hlt : i < (κ.batch b).items.length := by
    by_contra hc
    have := (h.absent_iff b i).2 (by omega)
    rw [hr] at this
    cases this
  obtain ⟨it, hit⟩ : ∃ it, (κ.batch b).items[i]? = some it := ⟨_, List.getElem?_eq_getElem hlt⟩
  obtain ⟨hitem, hindex, hop⟩ := h.built b i it hit
  have hf := h.fits (b, i)
  rw [hr] at hf
  obtain ⟨-, hzero, hnobuf, hsucc⟩ := hf
  have hwas : (κ.stage (b, i)).Open := by rw [hr]; trivial
  have hcount := openCount_completed hlt hwas
  have hpos : sub64 (κ.batch b).remaining 1 = (κ.batch b).remaining - 1 := by
    have h1 := h.remaining b
    have h2 := openCount_le κ.stage b (κ.batch b).items.length
    have h3 := h.size b
    exact sub64_exact (by omega) (by omega)
  have hother : ∀ c, c ≠ b → openCount (Function.update κ.stage (b, i) .completed) c
      (κ.batch c).items.length = openCount κ.stage c (κ.batch c).items.length := fun c hc =>
    openCount_congr fun j _ => by rw [Function.update_of_ne (by simp [hc])]
  have hdone : (κ.request (b, i)).Succeeded ↔ IoRequest.Succeeded { κ.request (b, i) with
      completions := (κ.request (b, i)).completions + 1, completed := true } := Iff.rfl
  constructor
  · intro c j
    have := h.absent_iff c j
    by_cases hc : c = b
    · subst hc
      by_cases hj : j = i
      · subst hj
        simp [Core.complete, hlt]
      · simpa [Core.complete, hj] using this
    · simpa [Core.complete, hc] using this
  · intro c
    by_cases hc : c = b
    · subst hc
      simpa [Core.complete] using h.idle_items c
    · simpa [Core.complete, hc] using h.idle_items c
  · intro c j it' hj
    have hj' : (κ.batch c).items[j]? = some it' := by
      by_cases hc : c = b
      · subst hc
        simpa [Core.complete] using hj
      · simpa [Core.complete, hc] using hj
    have hbu := h.built c j it' hj'
    by_cases hc : (c, j) = (b, i)
    · obtain ⟨rfl, rfl⟩ := Prod.mk.inj hc
      simpa [Core.complete] using hbu
    · by_cases hcb : c = b
      · subst hcb
        simpa [Core.complete, Function.update_of_ne hc] using hbu
      · simpa [Core.complete, hcb] using hbu
  · intro c
    by_cases hc : c = b
    · subst hc
      simpa [Core.complete] using h.item_ok c
    · simpa [Core.complete, hc] using h.item_ok c
  · intro c
    by_cases hc : c = b
    · subst hc
      simpa [Core.complete] using h.size c
    · simpa [Core.complete, hc] using h.size c
  · intro r
    by_cases hc : r = (b, i)
    · subst hc
      simp [Core.complete, Stage.Fits, hzero, hnobuf]
    · simpa [Core.complete, Function.update_of_ne hc] using h.fits r
  · intro c
    by_cases hc : c = b
    · subst hc
      simp only [Core.complete, Core.setBatch, Core.setRequest, Core.setStage, Function.update_self]
      rw [hpos, h.remaining, hcount]
      omega
    · simp only [Core.complete, Core.setBatch, Core.setRequest, Core.setStage, Function.update_of_ne hc]
      rw [h.remaining, hother c hc]
  · intro c
    by_cases hc : c = b
    · subst hc
      simpa [Core.complete] using h.results_length c
    · simpa [Core.complete, hc] using h.results_length c
  · intro c j hcj
    by_cases hc : (c, j) = (b, i)
    · obtain ⟨rfl, rfl⟩ := Prod.mk.inj hc
      refine ⟨⟨success, error⟩, ?_, ?_⟩
      · have : j < (κ.batch c).results.length := by rw [h.results_length]; exact hlt
        simp [Core.complete, hindex, this]
      · simpa [Core.complete, IoRequest.Succeeded] using hsucc
    · have hold : κ.stage (c, j) = .completed := by
        simpa [Core.complete, Function.update_of_ne hc] using hcj
      obtain ⟨x, hx, hxs⟩ := h.result c j hold
      refine ⟨x, ?_, ?_⟩
      · by_cases hcb : c = b
        · subst hcb
          have hne : i ≠ j := fun e => hc (by rw [e])
          simpa [Core.complete, hindex, hne] using hx
        · simpa [Core.complete, hcb] using hx
      · simpa [Core.complete, Function.update_of_ne hc] using hxs
  · intro c
    by_cases hc : c = b
    · subst hc
      intro hret
      have := h.returned c (by simpa [Core.complete] using hret)
      have h1 := h.remaining c
      omega
    · simpa [Core.complete, hc] using h.returned c

theorem Stage.fits_congr {r : Ref} {q q' : IoRequest} (h : SameIo q q') {st : Stage} (hf : st.Fits r q) :
    st.Fits r q' := by
  obtain ⟨-, -, h1, -, h2, h3, h4, h5, h6⟩ := h
  cases st <;> simp only [Stage.Fits, IoRequest.Succeeded, h1, h2, h3, h4, h5, h6] at hf ⊢ <;> exact hf

/-- A batch's caller moves on. -/
theorem caller_consistent (h : Consistent e κ) {b : Nat} {pc : CallerPc} (hm : CallerMove (κ.batch b) pc) :
    Consistent e (κ.setBatch b { κ.batch b with caller := pc }) := by
  have hdata : ∀ c, (Function.update κ.batch b { κ.batch b with caller := pc } c).operation =
        (κ.batch c).operation ∧
      (Function.update κ.batch b { κ.batch b with caller := pc } c).items = (κ.batch c).items ∧
      (Function.update κ.batch b { κ.batch b with caller := pc } c).remaining = (κ.batch c).remaining ∧
      (Function.update κ.batch b { κ.batch b with caller := pc } c).results = (κ.batch c).results := by
    intro c
    rcases eq_or_ne c b with rfl | hc
    · simp
    · simp [hc]
  constructor
  · intro c i
    simpa [(hdata c).2.1] using h.absent_iff c i
  · intro c
    simp only [Core.setBatch, (hdata c).2.1]
    rcases eq_or_ne c b with rfl | hc
    · intro hp
      simp only [Function.update_self] at hp
      exact absurd hp hm.present
    · simpa [hc] using h.idle_items c
  · intro c i it
    simpa [(hdata c).2.1, (hdata c).1] using h.built c i it
  · intro c
    simpa [(hdata c).2.1] using h.item_ok c
  · intro c
    simpa [(hdata c).2.1] using h.size c
  · exact h.fits
  · intro c
    simpa [(hdata c).2.1, (hdata c).2.2.1] using h.remaining c
  · intro c
    simpa [(hdata c).2.1, (hdata c).2.2.2] using h.results_length c
  · intro c i
    simpa [(hdata c).2.2.2] using h.result c i
  · intro c
    simp only [Core.setBatch, (hdata c).2.2.1]
    rcases eq_or_ne c b with rfl | hc
    · simp only [Function.update_self]
      rintro (hp | hp)
      · exact hm.returning hp
      · exact h.returned c (.inl (hm.returned.1 hp))
    · simpa [hc] using h.returned c

/-- A dispatch goes from its caller to its worker. -/
theorem post_consistent (h : Consistent e κ) {rs : List Ref} {marks : Mark → Prop}
    (hrs : ∀ r ∈ rs, κ.stage r = .held) : Consistent e
      { κ with stage := fun r => if r ∈ rs then .queued else κ.stage r, marks := marks } := by
  constructor
  · intro b i
    rw [← h.absent_iff b i]
    by_cases hm : (b, i) ∈ rs <;> simp [hm, hrs]
  · exact h.idle_items
  · exact h.built
  · exact h.item_ok
  · exact h.size
  · intro r
    have hf := h.fits r
    by_cases hm : r ∈ rs
    · rw [hrs r hm] at hf
      simpa [hm, Stage.Fits] using hf
    · simpa [hm] using hf
  · intro b
    rw [h.remaining b]
    refine (openCount_congr fun i _ => ?_).symm
    by_cases hm : (b, i) ∈ rs <;> simp [hm, hrs, Stage.Open]
  · exact h.results_length
  · intro b i hc
    by_cases hm : (b, i) ∈ rs
    · simp [hm] at hc
    · exact h.result b i (by simpa [hm] using hc)
  · exact h.returned

/-- One move keeps consistency. -/
theorem move_consistent (h : Consistent e κ) (hm : Move e κ κ') : Consistent e κ' := by
  cases hm with
  | submit b op items memory pc req hnew hlen hok hlive hpc hreq =>
    exact submit_consistent h hnew hlen hok hlive hpc hreq
  | post rs hrs => exact post_consistent h hrs
  | note r q hq =>
    refine h.turn (r := r) (t := κ.stage r) (q := q) (fun b => .refl _) ?_ rfl Iff.rfl Iff.rfl
      ⟨hq.2.2.2.1, hq.2.1, hq.2.2.1⟩ (fun _ => ?_) (Stage.fits_congr hq (h.fits r))
    · simp
    · simp only [IoRequest.Succeeded, hq.2.2.1, hq.2.2.2.2.2.2.2.1, hq.2.2.2.2.2.2.2.2]
  | scribble w buffer bytes _ => exact h.congr rfl rfl rfl
  | accept r k rest hr _ _ =>
    have hf := h.fits r
    rw [hr] at hf
    obtain ⟨h1, h2, h3, h4, h5⟩ := hf
    refine h.turn (r := r) (fun b => .refl _) rfl rfl (by simp [hr]) (by simp [hr, Stage.Open])
      ⟨rfl, rfl, rfl⟩ (by simp [hr]) ?_
    exact ⟨h1, h2, by simp, h4, h5, rfl, rfl⟩
  | transferWrite r c n hr _ _ =>
    have hf := h.fits r
    rw [hr] at hf
    exact h.turn (r := r) (q := κ.request r) (fun b => .refl _) rfl (by simp) (by simp [hr])
      (by simp [hr, Stage.Open]) ⟨rfl, rfl, rfl⟩ (fun _ => Iff.rfl) hf
  | transferRead r c n hr _ _ =>
    have hf := h.fits r
    rw [hr] at hf
    exact h.turn (r := r) (q := κ.request r) (fun b => .refl _) rfl (by simp) (by simp [hr])
      (by simp [hr, Stage.Open]) ⟨rfl, rfl, rfl⟩ (fun _ => Iff.rfl) hf
  | disturbWrite r c noise hr _ =>
    have hf := h.fits r
    rw [hr] at hf
    exact h.turn (r := r) (q := κ.request r) (fun b => .refl _) rfl (by simp) (by simp [hr])
      (by simp [hr, Stage.Open]) ⟨rfl, rfl, rfl⟩ (fun _ => Iff.rfl) hf
  | disturbRead r c noise hr _ =>
    have hf := h.fits r
    rw [hr] at hf
    exact h.turn (r := r) (q := κ.request r) (fun b => .refl _) rfl (by simp) (by simp [hr])
      (by simp [hr, Stage.Open]) ⟨rfl, rfl, rfl⟩ (fun _ => Iff.rfl) hf
  | report r c success hr _ =>
    have hf := h.fits r
    rw [hr] at hf
    obtain ⟨h1, h2, h3, h4, h5, -⟩ := hf
    exact h.turn (r := r) (fun b => .refl _) rfl rfl (by simp [hr]) (by simp [hr, Stage.Open])
      ⟨rfl, rfl, rfl⟩ (by simp [hr]) ⟨h1, h2, h3, rfl, h5⟩
  | deliver r k hr _ _ _ =>
    have hf := h.fits r
    rw [hr] at hf
    refine h.turn (r := r) (t := .closing true) (q := { κ.request r with
      copied := some (κ.stagedBytes r k), bufferIndex := none }) (fun b => ?_) rfl ?_ (by simp [hr])
      (by simp [hr, Stage.Open]) ⟨rfl, rfl, rfl⟩ (by simp [hr]) ⟨hf.1, hf.2.1, rfl, ?_⟩
    · simp only [Core.copy, Core.finish, Core.setBatch, Core.setPool, Core.setRequest, Core.setStage,
        Function.update_apply]
      split
      · rename_i hb
        subst hb
        exact ⟨rfl, rfl, rfl, rfl, rfl⟩
      · exact .refl _
    · simp [Core.copy, Core.finish]
    · simp [IoRequest.Succeeded, hf.2.2.2.1]
  | finish r success success' hr hs =>
    have hf := h.fits r
    rw [hr] at hf
    refine h.turn (r := r) (fun b => .refl _) rfl rfl (by simp [hr]) (by simp [hr, Stage.Open])
      ⟨rfl, rfl, rfl⟩ (by simp [hr]) ⟨hf.1, hf.2.1, rfl, ?_⟩
    rw [hs]
    simp [IoRequest.Succeeded, hf.2.2.2.1, hf.2.2.2.2]
  | abandon r hr =>
    have hf := h.fits r
    have hq : (κ.request r).completed = false ∧ (κ.request r).completions = 0 ∧
        (κ.request r).bufferIndex = none ∧ (κ.request r).reported = none := by
      rcases hr with hr | hr <;> rw [hr] at hf <;> exact ⟨hf.1, hf.2.1, hf.2.2.1, hf.2.2.2.1⟩
    refine h.turn (r := r) (q := κ.request r) (fun b => .refl _) rfl (by simp) ?_ ?_ ⟨rfl, rfl, rfl⟩
      (fun _ => Iff.rfl) ⟨hq.1, hq.2.1, hq.2.2.1, ?_⟩
    · rcases hr with hr | hr <;> simp [hr]
    · rcases hr with hr | hr <;> simp [hr, Stage.Open]
    · simp [IoRequest.Succeeded, hq.2.2.2]
  | complete r success error hr => exact complete_consistent h hr
  | caller b pc hpc => exact caller_consistent h hpc
  | fillPool w => exact h.congr rfl rfl rfl
  | releasePool w => exact h.congr rfl rfl rfl

theorem moves_consistent (h : Consistent e κ) (hm : Moves e κ κ') : Consistent e κ' := by
  induction hm with
  | refl => exact h
  | tail _ hstep ih => exact move_consistent ih hstep

end

end SpdkBdevContext
end SpdkConnector
