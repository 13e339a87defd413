import SpdkConnector.Context.BufferPool

/-!
# `SpdkBufferPool` under any sequence of calls

| here | spdk_buffer_pool.cpp |
|---|---|
| `refusal` | the six checks of `initialize` (:32-51) |
| `VectorFailure` | `reserve` and `assign` before the loop (:55-57), which throw for a count they cannot hold |
| `initializeCall` | `initialize` (:29) with its vectors and its DMA calls |
| `perform`, `runCalls` | one call, a sequence of calls |

A pool between calls is initialised and well formed, or `Blank`: it holds no buffer, and no call can tell it from a
new one (`Alike.answers_eq`), although a vector that threw leaves a size and an alignment behind that nothing reads.
-/

namespace SpdkConnector

namespace SpdkBufferPool

/-! ## The calls -/

/-- The vector calls of `initialize` (:55, :56, :57). -/
inductive VectorCall | reserveBuffers | assignInUse | reserveFreeIndexes
deriving DecidableEq

/-- `std::length_error` and `std::bad_alloc`. -/
inductive VectorError | lengthError | badAlloc
deriving DecidableEq

/-- The vector call that throws, and what. -/
structure VectorFailure where
  call : VectorCall
  error : VectorError
deriving DecidableEq

/-- An exception of the pool's own, or of one of its vectors. -/
inductive Thrown
  | pool (x : Exn)
  | vector (error : VectorError)
deriving DecidableEq

/-- A call to `spdk_dma_zmalloc` that returned a buffer, or one to `spdk_dma_free`. -/
inductive DmaEvent
  | zmalloc (buffer : Nat)
  | free (buffer : Nat)
deriving DecidableEq

/-- The exception `initialize` throws before it changes anything. -/
def refusal (p : SpdkBufferPool) (bufferSize bufferAlignment bufferCount : Nat) : Option Exn :=
  if p.initialized || p.buffers ≠ [] then some ⟨.logicError, "SPDK buffer pool is already initialized"⟩
  else if bufferSize = 0 then some ⟨.invalidArgument, "SPDK buffer size must be greater than zero"⟩
  else if bufferSize > u64Max then some ⟨.overflowError, "SPDK buffer size does not fit in size_t"⟩
  else if !isPowerOfTwo bufferAlignment then
    some ⟨.invalidArgument, "SPDK buffer alignment must be a nonzero power of two"⟩
  else if bufferCount = 0 then some ⟨.invalidArgument, "SPDK buffer count must be greater than zero"⟩
  else if bufferCount > u64Max / bufferSize then
    some ⟨.overflowError, "total SPDK buffer pool size overflows size_t"⟩
  else none

/-- The members when a vector call throws. -/
def stranded (p : SpdkBufferPool) (bufferSize bufferAlignment bufferCount : Nat) : VectorCall → SpdkBufferPool
  | .reserveBuffers => { p with bufferSize, bufferAlignment }
  | .assignInUse => { p with bufferSize, bufferAlignment }
  | .reserveFreeIndexes => { p with bufferSize, bufferAlignment, inUse := List.replicate bufferCount false }

/-- `buffers_` when the allocation loop is left, at its end or for a null. -/
def obtained (zmalloc : Nat → Option Nat) : Nat → List Nat → List Nat
  | 0, buffers => buffers
  | n + 1, buffers =>
    match zmalloc buffers.length with
    | none => buffers
    | some buffer => obtained zmalloc n (buffers ++ [buffer])

/-- `initialize` (:29): the result, the DMA calls and the pool. -/
def initializeCall (p : SpdkBufferPool) (bufferSize bufferAlignment bufferCount : Nat)
    (failure : Option VectorFailure) (zmalloc : Nat → Option Nat) :
    Except Thrown Unit × List DmaEvent × SpdkBufferPool :=
  match p.refusal bufferSize bufferAlignment bufferCount, failure with
  | some x, _ => (.error (.pool x), [], p)
  | none, some f => (.error (.vector f.error), [], p.stranded bufferSize bufferAlignment bufferCount f.call)
  | none, none =>
    match allocateBuffers zmalloc bufferCount [] with
    | .error allocated =>
      (.error (.pool ⟨.runtimeError, "spdk_dma_zmalloc failed after allocating " ++ toString allocated ++
        " of " ++ toString bufferCount ++ " SPDK buffers; partial allocations were released"⟩),
        (obtained zmalloc bufferCount []).map .zmalloc ++ (obtained zmalloc bufferCount []).map .free,
        p.releaseAll)
    | .ok buffers => (.ok (), buffers.map .zmalloc, filled bufferSize bufferAlignment buffers)

/-- A call with its arguments, and for `initialize` what its vectors and `spdk_dma_zmalloc` do. -/
inductive Call
  | initializePool (bufferSize bufferAlignment bufferCount : Nat) (failure : Option VectorFailure)
      (zmalloc : Nat → Option Nat)
  | tryAcquire
  | data (index : Nat)
  | release (index : Nat)
  | releaseAll

/-- What a call returns. -/
inductive Value
  | unit
  | index (index : Option Nat)
  | address (buffer : Nat)

/-- What the caller and SPDK see of a call. -/
structure Answer where
  result : Except Thrown Value
  dma : List DmaEvent

/-- One call. -/
def perform (p : SpdkBufferPool) : Call → Answer × SpdkBufferPool
  | .initializePool bufferSize bufferAlignment bufferCount failure zmalloc =>
    let (r, dma, q) := p.initializeCall bufferSize bufferAlignment bufferCount failure zmalloc
    (⟨r.map fun _ => .unit, dma⟩, q)
  | .tryAcquire => (⟨(p.tryAcquire.1.map .index).mapError .pool, []⟩, p.tryAcquire.2)
  | .data index => (⟨((p.data index).map .address).mapError .pool, []⟩, p)
  | .release index => (⟨((p.release index).1.map fun _ => .unit).mapError .pool, []⟩, (p.release index).2)
  | .releaseAll => (⟨.ok .unit, p.buffers.map .free⟩, p.releaseAll)

/-- A sequence of calls: the answers in order, and the pool after the last one. -/
def runCalls : SpdkBufferPool → List Call → List Answer × SpdkBufferPool
  | p, [] => ([], p)
  | p, c :: calls => ((p.perform c).1 :: (runCalls (p.perform c).2 calls).1, (runCalls (p.perform c).2 calls).2)

/-- The pool after a sequence of calls on a new one. -/
def poolAfter (calls : List Call) : SpdkBufferPool := (runCalls {} calls).2

/-- The buffers `spdk_dma_zmalloc` returned in a sequence of calls. -/
def allocatedIn (dma : List DmaEvent) : List Nat :=
  dma.filterMap fun | .zmalloc b => some b | .free _ => none

/-- The buffers given to `spdk_dma_free`. -/
def freedIn (dma : List DmaEvent) : List Nat :=
  dma.filterMap fun | .zmalloc _ => none | .free b => some b

/-- The DMA calls of a sequence of calls on a new pool. -/
def dmaCalls (calls : List Call) : List DmaEvent := (runCalls {} calls).1.flatMap (·.dma)

variable {p q : SpdkBufferPool} {bufferSize bufferAlignment bufferCount : Nat} {failure : Option VectorFailure}
  {zmalloc : Nat → Option Nat}

/-! ## `initialize` -/

/-- The checks come first and change nothing; the loop decides the rest. -/
theorem initializePool_eq (p : SpdkBufferPool) (bufferSize bufferAlignment bufferCount : Nat)
    (zmalloc : Nat → Option Nat) :
    p.initializePool bufferSize bufferAlignment bufferCount zmalloc =
      match p.refusal bufferSize bufferAlignment bufferCount with
      | some x => (.error x, p)
      | none =>
        match allocateBuffers zmalloc bufferCount [] with
        | .error allocated =>
          (.error ⟨.runtimeError, "spdk_dma_zmalloc failed after allocating " ++ toString allocated ++
            " of " ++ toString bufferCount ++ " SPDK buffers; partial allocations were released"⟩, p.releaseAll)
        | .ok buffers => (.ok (), filled bufferSize bufferAlignment buffers) := by
  unfold initializePool refusal
  iterate 6
    split
    · rfl
  rfl

/-- With vectors that do not throw, `initializeCall` is the pool's `initialize`. -/
theorem initializeCall_pool (p : SpdkBufferPool) (bufferSize bufferAlignment bufferCount : Nat)
    (zmalloc : Nat → Option Nat) :
    (p.initializeCall bufferSize bufferAlignment bufferCount none zmalloc).1 =
      (p.initializePool bufferSize bufferAlignment bufferCount zmalloc).1.mapError .pool ∧
    (p.initializeCall bufferSize bufferAlignment bufferCount none zmalloc).2.2 =
      (p.initializePool bufferSize bufferAlignment bufferCount zmalloc).2 := by
  rw [initializePool_eq]
  unfold initializeCall
  cases p.refusal bufferSize bufferAlignment bufferCount with
  | some x => exact ⟨rfl, rfl⟩
  | none =>
    cases allocateBuffers zmalloc bufferCount [] with
    | error allocated => exact ⟨rfl, rfl⟩
    | ok buffers => exact ⟨rfl, rfl⟩

/-- The number in the message of a failed loop is the number of buffers it had. -/
theorem allocateBuffers_error {n allocated : Nat} {buffers : List Nat}
    (h : allocateBuffers zmalloc n buffers = .error allocated) : (obtained zmalloc n buffers).length = allocated := by
  induction n generalizing buffers with
  | zero => cases h
  | succ n ih =>
    unfold allocateBuffers at h
    unfold obtained
    cases hb : zmalloc buffers.length with
    | none =>
      simp only [hb] at h ⊢
      exact Except.error.inj h
    | some buffer =>
      simp only [hb] at h ⊢
      exact ih h

theorem allocateBuffers_length {n : Nat} {buffers all : List Nat} (h : allocateBuffers zmalloc n buffers = .ok all) :
    all.length = buffers.length + n := by
  induction n generalizing buffers with
  | zero =>
    cases h
    rfl
  | succ n ih =>
    rw [allocateBuffers] at h
    split at h
    · cases h
    · have := ih h
      simp only [List.length_append, List.length_singleton] at this
      omega

/-! ## The pool between calls -/

/-- A pool that holds nothing. -/
structure Blank (p : SpdkBufferPool) : Prop where
  uninitialized : p.initialized = false
  buffers : p.buffers = []
  free : p.freeIndexes = []
  unleased : ∀ i, ¬ p.Leased i

/-- A pool after any sequence of calls. -/
def Between (p : SpdkBufferPool) : Prop := p.initialized = true ∧ p.WF ∨ p.Blank

/-- The same pool, or two that hold nothing. -/
def Alike (p q : SpdkBufferPool) : Prop := p = q ∨ p.Blank ∧ q.Blank

theorem new_blank : Blank {} := ⟨rfl, rfl, rfl, fun i h => by simp [Leased] at h⟩

theorem WF.between (h : p.WF) : p.Between := by
  cases hini : p.initialized with
  | true => exact .inl ⟨hini, h⟩
  | false =>
    rw [h.emptied hini]
    exact .inr new_blank

theorem Blank.stranded (h : p.Blank) (call : VectorCall) :
    (p.stranded bufferSize bufferAlignment bufferCount call).Blank := by
  cases call with
  | reserveBuffers => exact ⟨h.uninitialized, h.buffers, h.free, h.unleased⟩
  | assignInUse => exact ⟨h.uninitialized, h.buffers, h.free, h.unleased⟩
  | reserveFreeIndexes =>
    refine ⟨h.uninitialized, h.buffers, h.free, fun i hi => ?_⟩
    by_cases hlt : i < bufferCount <;> simp [Leased, SpdkBufferPool.stranded, List.getD_eq_getElem?_getD, hlt] at hi

theorem refusal_initialized (h : p.initialized = true) :
    p.refusal bufferSize bufferAlignment bufferCount =
      some ⟨.logicError, "SPDK buffer pool is already initialized"⟩ := by
  simp [refusal, h]

/-- An initialised pool refuses. -/
theorem uninitialized_of_refusal (h : p.refusal bufferSize bufferAlignment bufferCount = none) :
    p.initialized = false := by
  cases hini : p.initialized with
  | false => rfl
  | true =>
    rw [refusal_initialized hini] at h
    cases h

theorem Blank.refusal_eq (hp : p.Blank) (hq : q.Blank) :
    p.refusal bufferSize bufferAlignment bufferCount = q.refusal bufferSize bufferAlignment bufferCount := by
  unfold refusal
  rw [hp.uninitialized, hp.buffers, hq.uninitialized, hq.buffers]

/-- What `initialize` can do: refuse, lose a vector, give back what the loop obtained, or fill the pool. -/
theorem initializeCall_cases (p : SpdkBufferPool) (bufferSize bufferAlignment bufferCount : Nat)
    (failure : Option VectorFailure) (zmalloc : Nat → Option Nat) :
    (∃ x, p.refusal bufferSize bufferAlignment bufferCount = some x ∧
      p.initializeCall bufferSize bufferAlignment bufferCount failure zmalloc = (.error (.pool x), [], p)) ∨
    (∃ f, p.refusal bufferSize bufferAlignment bufferCount = none ∧ failure = some f ∧
      p.initializeCall bufferSize bufferAlignment bufferCount failure zmalloc =
        (.error (.vector f.error), [], p.stranded bufferSize bufferAlignment bufferCount f.call)) ∨
    (p.refusal bufferSize bufferAlignment bufferCount = none ∧ failure = none ∧
      p.initializeCall bufferSize bufferAlignment bufferCount failure zmalloc =
        (.error (.pool ⟨.runtimeError, "spdk_dma_zmalloc failed after allocating " ++
            toString (obtained zmalloc bufferCount []).length ++ " of " ++ toString bufferCount ++
            " SPDK buffers; partial allocations were released"⟩), (obtained zmalloc bufferCount []).map .zmalloc ++
          (obtained zmalloc bufferCount []).map .free, {})) ∨
    ∃ buffers, p.refusal bufferSize bufferAlignment bufferCount = none ∧ failure = none ∧
      buffers.length = bufferCount ∧
      p.initializeCall bufferSize bufferAlignment bufferCount failure zmalloc =
        (.ok (), buffers.map .zmalloc, filled bufferSize bufferAlignment buffers) := by
  unfold initializeCall
  cases hr : p.refusal bufferSize bufferAlignment bufferCount with
  | some x => exact .inl ⟨x, rfl, rfl⟩
  | none =>
    cases failure with
    | some f => exact .inr (.inl ⟨f, rfl, rfl, rfl⟩)
    | none =>
      cases hb : allocateBuffers zmalloc bufferCount [] with
      | error allocated =>
        rw [allocateBuffers_error hb]
        exact .inr (.inr (.inl ⟨rfl, rfl, rfl⟩))
      | ok buffers =>
        have hlen := allocateBuffers_length hb
        rw [List.length_nil, Nat.zero_add] at hlen
        exact .inr (.inr (.inr ⟨buffers, rfl, rfl, hlen, rfl⟩))

/-! ## Every call keeps it -/

theorem Between.wf (h : p.Between) (hini : p.initialized = true) : p.WF := by
  rcases h with ⟨-, hwf⟩ | hblank
  · exact hwf
  · rw [hblank.uninitialized] at hini
    cases hini

theorem Between.blank (h : p.Between) (hini : p.initialized = false) : p.Blank := by
  rcases h with ⟨hp, -⟩ | hblank
  · rw [hini] at hp
    cases hp
  · exact hblank

theorem Blank.tryAcquire_eq (h : p.Blank) :
    p.tryAcquire = (.error ⟨.logicError, "SPDK buffer pool is not initialized"⟩, p) := by
  simp [tryAcquire, h.uninitialized]

theorem Blank.checkLeased_eq (h : p.Blank) (i : Nat) :
    p.checkLeased i = .error ⟨.logicError, "SPDK buffer pool is not initialized"⟩ := by
  simp [checkLeased, h.uninitialized]

theorem Blank.data_eq (h : p.Blank) (i : Nat) :
    p.data i = .error ⟨.logicError, "SPDK buffer pool is not initialized"⟩ := by
  rw [data, h.checkLeased_eq]
  rfl

theorem Blank.release_eq (h : p.Blank) (i : Nat) :
    p.release i = (.error ⟨.logicError, "SPDK buffer pool is not initialized"⟩, p) := by
  rw [release, h.checkLeased_eq]

theorem Between.initializeCall (h : p.Between) :
    (p.initializeCall bufferSize bufferAlignment bufferCount failure zmalloc).2.2.Between := by
  rcases initializeCall_cases p bufferSize bufferAlignment bufferCount failure zmalloc with
    ⟨x, -, he⟩ | ⟨f, hr, -, he⟩ | ⟨-, -, he⟩ | ⟨buffers, -, -, -, he⟩ <;> rw [he]
  · exact h
  · exact .inr ((h.blank (uninitialized_of_refusal hr)).stranded f.call)
  · exact .inr new_blank
  · exact .inl ⟨rfl, filled_wf⟩

theorem Between.tryAcquire (h : p.Between) : p.tryAcquire.2.Between := by
  cases hini : p.initialized with
  | false =>
    rw [(h.blank hini).tryAcquire_eq]
    exact h
  | true =>
    rcases tryAcquire_cases (h.wf hini) with ⟨-, he⟩ | ⟨-, -, he⟩ | ⟨k, rest, -, hfree, -, -, he⟩ <;> rw [he]
    · exact h
    · exact h
    · exact .inl ⟨hini, (h.wf hini).acquired hfree hini⟩

theorem Between.release (h : p.Between) (i : Nat) : (p.release i).2.Between := by
  cases hini : p.initialized with
  | false =>
    rw [(h.blank hini).release_eq]
    exact h
  | true =>
    by_cases hi : p.Leased i
    · rw [release_leased (h.wf hini) hi]
      exact .inl ⟨hini, (h.wf hini).released hi⟩
    · obtain ⟨x, he⟩ := release_unleased (h.wf hini) hi
      rw [he]
      exact h

theorem Between.perform (h : p.Between) (c : Call) : (p.perform c).2.Between := by
  cases c with
  | initializePool bufferSize bufferAlignment bufferCount failure zmalloc => exact h.initializeCall
  | tryAcquire => exact h.tryAcquire
  | data index => exact h
  | release index => exact h.release index
  | releaseAll => exact .inr new_blank

theorem Between.runCalls (h : p.Between) (calls : List Call) : (p.runCalls calls).2.Between := by
  induction calls generalizing p with
  | nil => exact h
  | cons c calls ih => exact ih (h.perform c)

theorem poolAfter_between (calls : List Call) : (poolAfter calls).Between := by
  apply Between.runCalls
  exact .inr new_blank

/-! ## No call tells two empty pools apart -/

theorem Blank.alike_initializeCall (hp : p.Blank) (hq : q.Blank) (bufferSize bufferAlignment bufferCount : Nat)
    (failure : Option VectorFailure) (zmalloc : Nat → Option Nat) :
    (p.initializeCall bufferSize bufferAlignment bufferCount failure zmalloc).1 =
      (q.initializeCall bufferSize bufferAlignment bufferCount failure zmalloc).1 ∧
    (p.initializeCall bufferSize bufferAlignment bufferCount failure zmalloc).2.1 =
      (q.initializeCall bufferSize bufferAlignment bufferCount failure zmalloc).2.1 ∧
    Alike (p.initializeCall bufferSize bufferAlignment bufferCount failure zmalloc).2.2
      (q.initializeCall bufferSize bufferAlignment bufferCount failure zmalloc).2.2 := by
  unfold SpdkBufferPool.initializeCall
  rw [hp.refusal_eq hq]
  cases q.refusal bufferSize bufferAlignment bufferCount with
  | some x => exact ⟨rfl, rfl, .inr ⟨hp, hq⟩⟩
  | none =>
    cases failure with
    | some f => exact ⟨rfl, rfl, .inr ⟨hp.stranded f.call, hq.stranded f.call⟩⟩
    | none =>
      cases allocateBuffers zmalloc bufferCount [] with
      | error allocated => exact ⟨rfl, rfl, .inl rfl⟩
      | ok buffers => exact ⟨rfl, rfl, .inl rfl⟩

theorem Alike.perform (h : Alike p q) (c : Call) :
    (p.perform c).1 = (q.perform c).1 ∧ Alike (p.perform c).2 (q.perform c).2 := by
  rcases h with rfl | ⟨hp, hq⟩
  · exact ⟨rfl, .inl rfl⟩
  · cases c with
    | initializePool bufferSize bufferAlignment bufferCount failure zmalloc =>
      obtain ⟨hresult, hdma, hpool⟩ := hp.alike_initializeCall hq bufferSize bufferAlignment bufferCount
        failure zmalloc
      refine ⟨?_, hpool⟩
      simp only [SpdkBufferPool.perform, hresult, hdma]
    | tryAcquire =>
      simp only [SpdkBufferPool.perform, hp.tryAcquire_eq, hq.tryAcquire_eq]
      exact ⟨trivial, .inr ⟨hp, hq⟩⟩
    | data index =>
      simp only [SpdkBufferPool.perform, hp.data_eq, hq.data_eq]
      exact ⟨trivial, .inr ⟨hp, hq⟩⟩
    | release index =>
      simp only [SpdkBufferPool.perform, hp.release_eq, hq.release_eq]
      exact ⟨trivial, .inr ⟨hp, hq⟩⟩
    | releaseAll =>
      simp only [SpdkBufferPool.perform, hp.buffers, hq.buffers]
      exact ⟨trivial, .inl rfl⟩

theorem Alike.answers_eq (h : Alike p q) (calls : List Call) : (p.runCalls calls).1 = (q.runCalls calls).1 := by
  induction calls generalizing p q with
  | nil => rfl
  | cons c calls ih =>
    obtain ⟨hanswer, hpool⟩ := h.perform c
    rw [SpdkBufferPool.runCalls, SpdkBufferPool.runCalls, hanswer, ih hpool]

/-! ## Buffers are freed once -/

@[simp] theorem allocatedIn_append (xs ys : List DmaEvent) : allocatedIn (xs ++ ys) = allocatedIn xs ++ allocatedIn ys :=
  List.filterMap_append

@[simp] theorem freedIn_append (xs ys : List DmaEvent) : freedIn (xs ++ ys) = freedIn xs ++ freedIn ys :=
  List.filterMap_append

@[simp] theorem allocatedIn_zmalloc (bs : List Nat) : allocatedIn (bs.map .zmalloc) = bs := by
  induction bs with
  | nil => rfl
  | cons b bs ih => exact congrArg (b :: ·) ih

@[simp] theorem allocatedIn_free (bs : List Nat) : allocatedIn (bs.map .free) = [] := by
  induction bs with
  | nil => rfl
  | cons b bs ih => exact ih

@[simp] theorem freedIn_zmalloc (bs : List Nat) : freedIn (bs.map .zmalloc) = [] := by
  induction bs with
  | nil => rfl
  | cons b bs ih => exact ih

@[simp] theorem freedIn_free (bs : List Nat) : freedIn (bs.map .free) = bs := by
  induction bs with
  | nil => rfl
  | cons b bs ih => exact congrArg (b :: ·) ih

theorem refusal_buffers (h : p.refusal bufferSize bufferAlignment bufferCount = none) : p.buffers = [] := by
  by_contra hne
  simp [refusal, hne] at h

theorem stranded_buffers (call : VectorCall) :
    (p.stranded bufferSize bufferAlignment bufferCount call).buffers = p.buffers := by
  cases call <;> rfl

/-- What a call obtains and what the pool held is what it frees and what the pool then holds. -/
theorem perform_dma (h : p.Between) (c : Call) :
    (allocatedIn (p.perform c).1.dma ++ p.buffers).Perm (freedIn (p.perform c).1.dma ++ (p.perform c).2.buffers) := by
  cases c with
  | initializePool bufferSize bufferAlignment bufferCount failure zmalloc =>
    simp only [perform]
    rcases initializeCall_cases p bufferSize bufferAlignment bufferCount failure zmalloc with
      ⟨x, -, he⟩ | ⟨f, hr, -, he⟩ | ⟨hr, -, he⟩ | ⟨buffers, hr, -, -, he⟩ <;> rw [he]
    · exact .refl _
    · simp only [stranded_buffers]
      exact .refl _
    · simp [refusal_buffers hr]
    · simp [refusal_buffers hr, filled]
  | tryAcquire =>
    have hkeep : p.tryAcquire.2.buffers = p.buffers := by
      cases hini : p.initialized with
      | false => rw [(h.blank hini).tryAcquire_eq]
      | true =>
        rcases tryAcquire_cases (h.wf hini) with ⟨-, he⟩ | ⟨-, -, he⟩ | ⟨k, rest, -, -, -, -, he⟩ <;> rw [he]
    simp only [perform, hkeep]
    exact .refl _
  | data index => exact .refl _
  | release index =>
    have hkeep : (p.release index).2.buffers = p.buffers := by
      unfold release
      split <;> rfl
    simp only [perform, hkeep]
    exact .refl _
  | releaseAll =>
    show (allocatedIn (p.buffers.map .free) ++ p.buffers).Perm (freedIn (p.buffers.map .free) ++ [])
    simp

theorem runCalls_dma (h : p.Between) (calls : List Call) :
    (allocatedIn ((p.runCalls calls).1.flatMap (·.dma)) ++ p.buffers).Perm
      (freedIn ((p.runCalls calls).1.flatMap (·.dma)) ++ (p.runCalls calls).2.buffers) := by
  induction calls generalizing p with
  | nil => exact .refl _
  | cons c calls ih =>
    have hfirst := perform_dma h c
    have hrest := ih (h.perform c)
    simp only [runCalls, List.flatMap_cons, allocatedIn_append, freedIn_append, List.append_assoc]
    generalize allocatedIn (p.perform c).1.dma = a, freedIn (p.perform c).1.dma = f at hfirst ⊢
    generalize allocatedIn _ = as, freedIn _ = fs at hrest ⊢
    calc List.Perm (a ++ (as ++ p.buffers)) (as ++ (a ++ p.buffers)) := List.perm_append_comm_assoc ..
      List.Perm _ (as ++ (f ++ (p.perform c).2.buffers)) := hfirst.append_left _
      List.Perm _ (f ++ (as ++ (p.perform c).2.buffers)) := List.perm_append_comm_assoc ..
      List.Perm _ (f ++ (fs ++ (runCalls (p.perform c).2 calls).2.buffers)) := hrest.append_left _

/-! ## What a caller may rely on -/

/-- A failed `initialize` of `p` with these DMA calls, which left `q`: what was obtained was freed, once, and the pool
is the one it was, initialised or empty, to every later call. -/
structure GivenBack (p : SpdkBufferPool) (dma : List DmaEvent) (q : SpdkBufferPool) : Prop where
  freed : freedIn dma = allocatedIn dma
  untouched : p.initialized = true → q = p
  empty : p.initialized = false → p.Blank ∧ q.Blank
  unseen : ∀ calls, (q.runCalls calls).1 = (p.runCalls calls).1

/-- What each operation promises between two calls. -/
structure Reliable (p : SpdkBufferPool) : Prop where
  free_nodup : p.freeIndexes.Nodup
  partition : p.initialized = true → ∀ i,
    (i < p.buffers.length ↔ i ∈ p.freeIndexes ∨ p.Leased i) ∧ ¬ (i ∈ p.freeIndexes ∧ p.Leased i)
  acquire : p.initialized = true → ∃ r, p.tryAcquire.1 = .ok r ∧
    (r = none ↔ ∀ i < p.buffers.length, p.Leased i) ∧ (r = none → p.tryAcquire.2 = p) ∧
    ∀ i, r = some i → i < p.buffers.length ∧ ¬ p.Leased i ∧ ∀ j, p.tryAcquire.2.Leased j ↔ j = i ∨ p.Leased j
  acquire_thrown : p.initialized = false → ∃ x, p.tryAcquire = (.error x, p)
  release : ∀ i, p.Leased i → (p.release i).1 = .ok () ∧ ∀ j, (p.release i).2.Leased j ↔ j ≠ i ∧ p.Leased j
  release_thrown : ∀ i, ¬ p.Leased i → ∃ x, p.release i = (.error x, p)
  data : ∀ i, p.Leased i → i < p.buffers.length ∧ p.data i = .ok (p.buffers.getD i 0)
  data_thrown : ∀ i, ¬ p.Leased i → ∃ x, p.data i = .error x
  filled : ∀ bufferSize bufferAlignment bufferCount failure zmalloc dma q,
    p.initializeCall bufferSize bufferAlignment bufferCount failure zmalloc = (.ok (), dma, q) →
      p.initialized = false ∧ q.initialized = true ∧ q.buffers.length = bufferCount ∧ allocatedIn dma = q.buffers ∧
      ∀ i, ¬ q.Leased i
  failed : ∀ bufferSize bufferAlignment bufferCount failure zmalloc x dma q,
    p.initializeCall bufferSize bufferAlignment bufferCount failure zmalloc = (.error x, dma, q) → GivenBack p dma q

/-- A failed `initialize` whose vectors did not throw leaves every member as it was. -/
def Restores (p : SpdkBufferPool) : Prop :=
  ∀ bufferSize bufferAlignment bufferCount zmalloc x dma q,
    p.initializeCall bufferSize bufferAlignment bufferCount none zmalloc = (.error x, dma, q) → q = p

/-- No vector throws in the call. -/
def Call.vectorsHold : Call → Bool
  | .initializePool _ _ _ failure _ => failure.isNone
  | _ => true

theorem WF.partition (h : p.WF) (i : Nat) :
    (i < p.buffers.length ↔ i ∈ p.freeIndexes ∨ p.Leased i) ∧ ¬ (i ∈ p.freeIndexes ∧ p.Leased i) := by
  rw [h.free_iff i]
  constructor
  · constructor
    · intro hi
      by_cases hl : p.Leased i
      · exact .inr hl
      · exact .inl ⟨hi, hl⟩
    · rintro (⟨hi, -⟩ | hl)
      · exact hi
      · exact h.leased_lt hl
  · rintro ⟨⟨-, hfree⟩, hl⟩
    exact hfree hl

theorem WF.tryAcquire_spec (h : p.WF) (hini : p.initialized = true) :
    ∃ r, p.tryAcquire.1 = .ok r ∧
      (r = none ↔ ∀ i < p.buffers.length, p.Leased i) ∧ (r = none → p.tryAcquire.2 = p) ∧
      ∀ i, r = some i → i < p.buffers.length ∧ ¬ p.Leased i ∧ ∀ j, p.tryAcquire.2.Leased j ↔ j = i ∨ p.Leased j := by
  rcases tryAcquire_cases h with ⟨hno, -⟩ | ⟨-, hfree, he⟩ | ⟨k, rest, -, -, hk, hlt, he⟩
  · rw [hini] at hno
    cases hno
  · refine ⟨none, by rw [he], ⟨fun _ i hi => ?_, fun _ => rfl⟩, fun _ => by rw [he], nofun⟩
    rcases (h.partition i).1.1 hi with hmem | hl
    · rw [hfree] at hmem
      cases hmem
    · exact hl
  · refine ⟨some k, by rw [he], ⟨nofun, fun hall => absurd (hall k hlt) hk⟩, nofun, ?_⟩
    rintro i ⟨⟩
    refine ⟨hlt, hk, fun j => ?_⟩
    rw [he]
    exact leased_set_true (h.lengths ▸ hlt) j rest

theorem Between.unleased (h : p.Between) (hini : p.initialized = false) (i : Nat) : ¬ p.Leased i :=
  (h.blank hini).unleased i

/-- A leased index is one of an initialised pool. -/
theorem Between.leased_wf (h : p.Between) {i : Nat} (hi : p.Leased i) : p.WF := by
  cases hini : p.initialized with
  | true => exact h.wf hini
  | false => exact absurd hi (h.unleased hini i)

theorem givenBack_blank {dma : List DmaEvent} (hfreed : freedIn dma = allocatedIn dma) (hp : p.Blank) (hq : q.Blank) :
    GivenBack p dma q := by
  refine ⟨hfreed, ?_, fun _ => ⟨hp, hq⟩, Alike.answers_eq (.inr ⟨hq, hp⟩)⟩
  intro hini
  rw [hp.uninitialized] at hini
  cases hini

theorem Between.givenBack {x : Thrown} {dma : List DmaEvent} (h : p.Between)
    (he : p.initializeCall bufferSize bufferAlignment bufferCount failure zmalloc = (.error x, dma, q)) :
    GivenBack p dma q := by
  rcases initializeCall_cases p bufferSize bufferAlignment bufferCount failure zmalloc with
    ⟨y, -, hc⟩ | ⟨f, hr, -, hc⟩ | ⟨hr, -, hc⟩ | ⟨buffers, -, -, -, hc⟩ <;> rw [he] at hc
  · cases hc
    exact ⟨rfl, fun _ => rfl, fun hini => ⟨h.blank hini, h.blank hini⟩, fun _ => rfl⟩
  · have hblank := h.blank (uninitialized_of_refusal hr)
    cases hc
    exact givenBack_blank rfl hblank (hblank.stranded f.call)
  · have hblank := h.blank (uninitialized_of_refusal hr)
    cases hc
    exact givenBack_blank (by simp) hblank new_blank
  · cases hc

theorem initializeCall_filled {dma : List DmaEvent}
    (he : p.initializeCall bufferSize bufferAlignment bufferCount failure zmalloc = (.ok (), dma, q)) :
    p.initialized = false ∧ q.initialized = true ∧ q.buffers.length = bufferCount ∧ allocatedIn dma = q.buffers ∧
      ∀ i, ¬ q.Leased i := by
  rcases initializeCall_cases p bufferSize bufferAlignment bufferCount failure zmalloc with
    ⟨y, -, hc⟩ | ⟨f, -, -, hc⟩ | ⟨-, -, hc⟩ | ⟨buffers, hr, -, hlen, hc⟩ <;> rw [he] at hc <;> cases hc
  exact ⟨uninitialized_of_refusal hr, rfl, hlen, allocatedIn_zmalloc buffers, not_leased_filled⟩

theorem Between.reliable (h : p.Between) : Reliable p where
  free_nodup := by
    cases hini : p.initialized with
    | true => exact (h.wf hini).free_nodup
    | false =>
      rw [(h.blank hini).free]
      exact List.nodup_nil
  partition := fun hini => (h.wf hini).partition
  acquire := fun hini => (h.wf hini).tryAcquire_spec hini
  acquire_thrown := fun hini => ⟨_, (h.blank hini).tryAcquire_eq⟩
  release := by
    intro i hi
    rw [release_leased (h.leased_wf hi) hi]
    exact ⟨rfl, fun j => leased_set_false j _⟩
  release_thrown := by
    intro i hi
    cases hini : p.initialized with
    | true => exact release_unleased (h.wf hini) hi
    | false => exact ⟨_, (h.blank hini).release_eq i⟩
  data := fun i hi => ⟨(h.leased_wf hi).leased_lt hi, data_leased (h.leased_wf hi) hi⟩
  data_thrown := by
    intro i hi
    cases hini : p.initialized with
    | true => exact data_refused (h.wf hini) hi
    | false => exact ⟨_, (h.blank hini).data_eq i⟩
  filled := fun _ _ _ _ _ _ _ he => initializeCall_filled he
  failed := fun _ _ _ _ _ _ _ _ he => h.givenBack he

theorem WF.perform (h : p.WF) {c : Call} (hc : c.vectorsHold = true) : (p.perform c).2.WF := by
  cases c with
  | initializePool bufferSize bufferAlignment bufferCount failure zmalloc =>
    simp only [SpdkBufferPool.perform]
    rcases initializeCall_cases p bufferSize bufferAlignment bufferCount failure zmalloc with
      ⟨x, -, he⟩ | ⟨f, -, rfl, he⟩ | ⟨-, -, he⟩ | ⟨buffers, -, -, -, he⟩
    · rw [he]
      exact h
    · cases hc
    · rw [he]
      exact new_wf
    · rw [he]
      exact filled_wf
  | tryAcquire =>
    simp only [SpdkBufferPool.perform]
    rcases tryAcquire_cases h with ⟨-, he⟩ | ⟨-, -, he⟩ | ⟨k, rest, hini, hfree, -, -, he⟩ <;> rw [he]
    · exact h
    · exact h
    · exact h.acquired hfree hini
  | data index => exact h
  | release index =>
    simp only [SpdkBufferPool.perform]
    by_cases hi : p.Leased index
    · rw [release_leased h hi]
      exact h.released hi
    · obtain ⟨x, he⟩ := release_unleased h hi
      rw [he]
      exact h
  | releaseAll => exact new_wf

theorem WF.runCalls (h : p.WF) {calls : List Call} (hcalls : ∀ c ∈ calls, c.vectorsHold = true) :
    (p.runCalls calls).2.WF := by
  induction calls generalizing p with
  | nil => exact h
  | cons c calls ih =>
    have hfirst := h.perform (hcalls c (List.mem_cons_self ..))
    exact ih hfirst fun c hc => hcalls c (List.mem_cons_of_mem _ hc)

theorem WF.restores (h : p.WF) : Restores p := by
  intro bufferSize bufferAlignment bufferCount zmalloc x dma q he
  rcases initializeCall_cases p bufferSize bufferAlignment bufferCount none zmalloc with
    ⟨y, -, hc⟩ | ⟨f, -, hf, -⟩ | ⟨hr, -, hc⟩ | ⟨buffers, -, -, -, hc⟩
  · rw [he] at hc
    cases hc
    rfl
  · cases hf
  · rw [he] at hc
    cases hc
    exact (h.emptied (uninitialized_of_refusal hr)).symm
  · rw [he] at hc
    cases hc

/-- **The pool's invariant over every sequence of calls.**  After any calls, with any arguments and allocators, the
free indexes are distinct and with the leased ones make up `0` to `n - 1`; `tryAcquire` leases an index that was
free and returns nothing exactly when all are leased; `release` and `data` succeed exactly on a leased index and
otherwise leave the pool alone; a failed `initialize` gives back what it obtained and leaves the pool as it was, every
member of it unless one of its vectors threw.  Over the whole sequence each buffer obtained was freed once or is one
of those the pool holds. -/
theorem pool_invariant :
    (∀ calls, Reliable (poolAfter calls)) ∧
    (∀ calls, (allocatedIn (dmaCalls calls)).Perm (freedIn (dmaCalls calls) ++ (poolAfter calls).buffers)) ∧
    ∀ calls, (∀ c ∈ calls, c.vectorsHold = true) → Restores (poolAfter calls) := by
  refine ⟨fun calls => (poolAfter_between calls).reliable, fun calls => ?_, fun calls hcalls => ?_⟩
  · have hrun := runCalls_dma (p := {}) (.inr new_blank) calls
    rwa [List.append_nil] at hrun
  · exact (new_wf.runCalls hcalls).restores

end SpdkBufferPool

end SpdkConnector
