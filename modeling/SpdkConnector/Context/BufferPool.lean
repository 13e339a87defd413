import SpdkConnector.Geometry

/-!
# `SpdkBufferPool` (spdk/spdk_buffer_pool.cpp)

Fixed-size DMA buffers leased by index. `free_indexes_` is a stack: the head of `freeIndexes` is its
`back()`. Every operation returns its result beside the pool, also where the source throws.

`WF` is the pool between calls: each index is either free, once, or flagged in use. It is kept by every
operation and each operation's result is read off it.
-/

namespace SpdkConnector

structure SpdkBufferPool where
  bufferSize : Nat := 0
  bufferAlignment : Nat := 0
  buffers : List Nat := []
  inUse : List Bool := []
  freeIndexes : List Nat := []
  initialized : Bool := false
deriving DecidableEq, Repr

namespace SpdkBufferPool

/-- `release_all` (:79). -/
def releaseAll (_ : SpdkBufferPool) : SpdkBufferPool := {}

/-- The allocation loop of `initialize` (:61-73), `n` rounds before its end: the addresses obtained, or how
many there were when `spdk_dma_zmalloc` returned null. -/
def allocateBuffers (zmalloc : Nat → Option Nat) : Nat → List Nat → Except Nat (List Nat)
  | 0, buffers => .ok buffers
  | n + 1, buffers =>
    match zmalloc buffers.length with
    | none => .error buffers.length
    | some buffer => allocateBuffers zmalloc n (buffers ++ [buffer])

/-- The tables of a pool of `buffers`, all free (:55-60, :74-77). -/
def filled (bufferSize bufferAlignment : Nat) (buffers : List Nat) : SpdkBufferPool where
  bufferSize := bufferSize
  bufferAlignment := bufferAlignment
  buffers := buffers
  inUse := List.replicate buffers.length false
  freeIndexes := List.range buffers.length
  initialized := true

/-- `initialize` (:32). -/
def initializePool (p : SpdkBufferPool) (bufferSize bufferAlignment bufferCount : Nat)
    (zmalloc : Nat → Option Nat) : Except Exn Unit × SpdkBufferPool :=
  if p.initialized || p.buffers ≠ [] then
    (.error ⟨.logicError, "SPDK buffer pool is already initialized"⟩, p)
  else if bufferSize = 0 then
    (.error ⟨.invalidArgument, "SPDK buffer size must be greater than zero"⟩, p)
  else if bufferSize > u64Max then
    (.error ⟨.overflowError, "SPDK buffer size does not fit in size_t"⟩, p)
  else if !isPowerOfTwo bufferAlignment then
    (.error ⟨.invalidArgument, "SPDK buffer alignment must be a nonzero power of two"⟩, p)
  else if bufferCount = 0 then
    (.error ⟨.invalidArgument, "SPDK buffer count must be greater than zero"⟩, p)
  else if bufferCount > u64Max / bufferSize then
    (.error ⟨.overflowError, "total SPDK buffer pool size overflows size_t"⟩, p)
  else
    match allocateBuffers zmalloc bufferCount [] with
    | .error allocated =>
      (.error ⟨.runtimeError, "spdk_dma_zmalloc failed after allocating " ++ toString allocated ++
        " of " ++ toString bufferCount ++ " SPDK buffers; partial allocations were released"⟩,
        p.releaseAll)
    | .ok buffers =>
      (.ok (), filled bufferSize bufferAlignment buffers)

/-- `try_acquire` (:91). -/
def tryAcquire (p : SpdkBufferPool) : Except Exn (Option Nat) × SpdkBufferPool :=
  if !p.initialized then (.error ⟨.logicError, "SPDK buffer pool is not initialized"⟩, p)
  else
    match p.freeIndexes with
    | [] => (.ok none, p)
    | index :: rest =>
      if index < p.inUse.length then
        (.ok (some index), { p with freeIndexes := rest, inUse := p.inUse.set index true })
      else (.error ⟨.logicError, "vector::_M_range_check"⟩, { p with freeIndexes := rest })

/-- `available` (:106). -/
def available (p : SpdkBufferPool) : Nat := p.freeIndexes.length

/-- The check `data` and `release` share: the index is a leased one. -/
def checkLeased (p : SpdkBufferPool) (index : Nat) : Except Exn Unit :=
  if !p.initialized then .error ⟨.logicError, "SPDK buffer pool is not initialized"⟩
  else if index ≥ p.buffers.length ∨ p.inUse.getD index false = false then
    .error ⟨.invalidArgument, "SPDK buffer index is not currently leased"⟩
  else .ok ()

/-- `data` (:110). -/
def data (p : SpdkBufferPool) (index : Nat) : Except Exn Nat := do
  p.checkLeased index
  pure (p.buffers.getD index 0)

/-- `release` (:120). -/
def release (p : SpdkBufferPool) (index : Nat) : Except Exn Unit × SpdkBufferPool :=
  match p.checkLeased index with
  | .error x => (.error x, p)
  | .ok () => (.ok (), { p with inUse := p.inUse.set index false, freeIndexes := index :: p.freeIndexes })

/-- The leased indexes. -/
def Leased (p : SpdkBufferPool) (index : Nat) : Prop := p.inUse.getD index false = true

/-- A pool between two calls. -/
structure WF (p : SpdkBufferPool) : Prop where
  lengths : p.inUse.length = p.buffers.length
  free_nodup : p.freeIndexes.Nodup
  free_iff : ∀ i, i ∈ p.freeIndexes ↔ i < p.buffers.length ∧ ¬ p.Leased i
  emptied : p.initialized = false → p = {}

variable {p p' : SpdkBufferPool} {i : Nat}

theorem new_wf : WF {} := ⟨rfl, .nil, by simp, fun _ => rfl⟩

theorem WF.releaseAll : WF p.releaseAll := new_wf

theorem WF.leased_lt (h : p.WF) (hi : p.Leased i) : i < p.buffers.length := by
  by_contra hc
  have hout : p.inUse.length ≤ i := by rw [h.lengths]; omega
  simp [Leased, List.getElem?_eq_none hout] at hi

theorem WF.leased_initialized (h : p.WF) (hi : p.Leased i) : p.initialized = true := by
  by_contra hc
  have hp := h.emptied (by simpa using hc)
  subst hp
  simp [Leased] at hi

theorem leased_set_true (h : i < p.inUse.length) (j : Nat) (fs : List Nat) :
    Leased { p with freeIndexes := fs, inUse := p.inUse.set i true } j ↔ j = i ∨ p.Leased j := by
  rcases eq_or_ne j i with rfl | hj
  · simp [Leased, h]
  · simp [Leased, List.getD_eq_getElem?_getD, hj, hj.symm]

theorem leased_set_false (j : Nat) (fs : List Nat) :
    Leased { p with freeIndexes := fs, inUse := p.inUse.set i false } j ↔ j ≠ i ∧ p.Leased j := by
  rcases eq_or_ne j i with rfl | hj
  · by_cases h : j < p.inUse.length <;>
      simp [Leased, List.getD_eq_getElem?_getD, h]
  · simp [Leased, List.getD_eq_getElem?_getD, hj, hj.symm]

theorem checkLeased_ok (h : p.WF) : p.checkLeased i = .ok () ↔ p.Leased i := by
  constructor
  · intro hok
    unfold checkLeased at hok
    split at hok
    · cases hok
    · split at hok
      · cases hok
      · rename_i hno
        simpa [Leased] using fun hf => hno (.inr hf)
  · intro hl
    have hlt := h.leased_lt hl
    have hno : ¬ (i ≥ p.buffers.length ∨ p.inUse.getD i false = false) := by
      rw [show p.inUse.getD i false = true from hl]
      simp only [Bool.true_eq_false, or_false]
      omega
    rw [checkLeased, if_neg (by simp [h.leased_initialized hl]), if_neg hno]

/-- What `try_acquire` can do: throw before initialisation, return nothing when every buffer is leased,
or lease the top of the free stack. -/
theorem tryAcquire_cases (h : p.WF) :
    (p.initialized = false ∧
      p.tryAcquire = (.error ⟨.logicError, "SPDK buffer pool is not initialized"⟩, p)) ∨
    (p.initialized = true ∧ p.freeIndexes = [] ∧ p.tryAcquire = (.ok none, p)) ∨
    ∃ k rest, p.initialized = true ∧ p.freeIndexes = k :: rest ∧ ¬ p.Leased k ∧ k < p.buffers.length ∧
      p.tryAcquire = (.ok (some k), { p with freeIndexes := rest, inUse := p.inUse.set k true }) := by
  cases hini : p.initialized with
  | false => exact .inl ⟨rfl, by simp [tryAcquire, hini]⟩
  | true =>
    cases hfree : p.freeIndexes with
    | nil => exact .inr (.inl ⟨rfl, rfl, by simp [tryAcquire, hini, hfree]⟩)
    | cons k rest =>
      obtain ⟨hlt, hk⟩ := (h.free_iff k).1 (by simp [hfree])
      have hlt' : k < p.inUse.length := h.lengths ▸ hlt
      exact .inr (.inr ⟨k, rest, rfl, rfl, hk, hlt, by simp [tryAcquire, hini, hfree, hlt']⟩)

theorem WF.acquired {k : Nat} {rest : List Nat} (h : p.WF) (hfree : p.freeIndexes = k :: rest)
    (hini : p.initialized = true) : WF { p with freeIndexes := rest, inUse := p.inUse.set k true } := by
  obtain ⟨hlt, hk⟩ := (h.free_iff k).1 (by simp [hfree])
  have hlt' : k < p.inUse.length := h.lengths ▸ hlt
  have hnd := h.free_nodup
  rw [hfree, List.nodup_cons] at hnd
  refine ⟨by simpa using h.lengths, hnd.2, fun j => ?_, by simp [hini]⟩
  have hj := h.free_iff j
  rw [leased_set_true hlt', not_or]
  rw [hfree, List.mem_cons] at hj
  constructor
  · intro hm
    obtain ⟨h1, h2⟩ := hj.1 (.inr hm)
    exact ⟨h1, fun e => hnd.1 (e ▸ hm), h2⟩
  · rintro ⟨h1, h2, h3⟩
    exact (hj.2 ⟨h1, h3⟩).resolve_left h2

theorem release_leased (h : p.WF) (hi : p.Leased i) :
    p.release i = (.ok (), { p with inUse := p.inUse.set i false, freeIndexes := i :: p.freeIndexes }) := by
  simp [release, (checkLeased_ok h).2 hi]

theorem release_unleased (h : p.WF) (hi : ¬ p.Leased i) : ∃ x, p.release i = (.error x, p) := by
  cases hc : p.checkLeased i with
  | error x => exact ⟨x, by simp [release, hc]⟩
  | ok _ => exact absurd ((checkLeased_ok h).1 hc) hi

theorem WF.released (h : p.WF) (hi : p.Leased i) :
    WF { p with inUse := p.inUse.set i false, freeIndexes := i :: p.freeIndexes } := by
  refine ⟨by simpa using h.lengths, ?_, fun j => ?_, ?_⟩
  · exact List.nodup_cons.2 ⟨fun hm => ((h.free_iff i).1 hm).2 hi, h.free_nodup⟩
  · rw [leased_set_false, List.mem_cons, h.free_iff]
    constructor
    · rintro (rfl | ⟨h1, h2⟩)
      · exact ⟨h.leased_lt hi, fun hc => hc.1 rfl⟩
      · exact ⟨h1, fun hc => h2 hc.2⟩
    · rintro ⟨h1, h2⟩
      by_cases hj : j = i
      · exact .inl hj
      · exact .inr ⟨h1, fun hl => h2 ⟨hj, hl⟩⟩
  · simp [h.leased_initialized hi]

/-- Releasing the index just acquired restores the pool. -/
theorem release_acquired {k : Nat} {rest : List Nat} (h : p.WF) (hini : p.initialized = true)
    (hfree : p.freeIndexes = k :: rest) :
    release { p with freeIndexes := rest, inUse := p.inUse.set k true } k = (.ok (), p) := by
  obtain ⟨hlt, hk⟩ := (h.free_iff k).1 (by simp [hfree])
  have hlt' : k < p.inUse.length := h.lengths ▸ hlt
  have hfalse : p.inUse[k] = false := by simpa [Leased, hlt'] using hk
  rw [release_leased (h.acquired hfree hini) ((leased_set_true hlt' k rest).2 (.inl rfl))]
  have hset : (p.inUse.set k true).set k false = p.inUse := by
    rw [List.set_set, ← hfalse, List.set_getElem_self]
  simp [hset, ← hfree]

theorem data_leased (h : p.WF) (hi : p.Leased i) : p.data i = .ok (p.buffers.getD i 0) := by
  simp [data, (checkLeased_ok h).2 hi, bind, Except.bind, pure, Except.pure]

theorem data_refused (h : p.WF) (hi : ¬ p.Leased i) : ∃ x, p.data i = .error x := by
  cases hc : p.checkLeased i with
  | error x => exact ⟨x, by simp [data, hc, bind, Except.bind]⟩
  | ok _ => exact absurd ((checkLeased_ok h).1 hc) hi

/-- An allocator that answers each request with a new address. -/
theorem allocateBuffers_range {zmalloc : Nat → Option Nat} (hz : ∀ i b, zmalloc i = some b → b = i) {n k : Nat}
    {buffers : List Nat} (h : allocateBuffers zmalloc n (List.range k) = .ok buffers) :
    buffers = List.range (k + n) := by
  induction n generalizing k with
  | zero =>
    simp only [allocateBuffers, Except.ok.injEq] at h
    exact h.symm
  | succ n ih =>
    simp only [allocateBuffers, List.length_range] at h
    split at h
    · cases h
    · rename_i b hb
      rw [hz k b hb, ← List.range_succ] at h
      rw [ih h]
      congr 1
      omega

/-- Initialisation leaves a pool with every buffer free, or the pool it was given. -/
theorem initializePool_cases (h : p.WF) (bufferSize bufferAlignment bufferCount : Nat)
    (zmalloc : Nat → Option Nat) :
    (∃ x, p.initializePool bufferSize bufferAlignment bufferCount zmalloc = (.error x, p)) ∨
    ∃ buffers, p.initialized = false ∧ 0 < bufferCount ∧ allocateBuffers zmalloc bufferCount [] = .ok buffers ∧
      p.initializePool bufferSize bufferAlignment bufferCount zmalloc =
        (.ok (), filled bufferSize bufferAlignment buffers) := by
  unfold initializePool
  split
  · exact .inl ⟨_, rfl⟩
  · rename_i hfresh
    simp only [Bool.or_eq_true, decide_eq_true_eq, not_or, Bool.not_eq_true, ne_eq, not_not] at hfresh
    have hp := h.emptied hfresh.1
    split
    · exact .inl ⟨_, rfl⟩
    split
    · exact .inl ⟨_, rfl⟩
    split
    · exact .inl ⟨_, rfl⟩
    split
    · exact .inl ⟨_, rfl⟩
    rename_i hcount
    split
    · exact .inl ⟨_, rfl⟩
    cases hb : allocateBuffers zmalloc bufferCount [] with
    | error n => exact .inl ⟨_, by rw [hp]; rfl⟩
    | ok buffers => exact .inr ⟨buffers, hfresh.1, Nat.pos_of_ne_zero hcount, rfl, rfl⟩

theorem not_leased_filled {bufferSize bufferAlignment : Nat} {buffers : List Nat} (j : Nat) :
    ¬ (filled bufferSize bufferAlignment buffers).Leased j := by
  by_cases hj : j < buffers.length <;> simp [Leased, filled, List.getD_eq_getElem?_getD, hj]

theorem filled_wf {bufferSize bufferAlignment : Nat} {buffers : List Nat} :
    (filled bufferSize bufferAlignment buffers).WF := by
  refine ⟨by simp [filled], List.nodup_range, fun j => ?_, by simp [filled]⟩
  constructor
  · intro hj
    exact ⟨List.mem_range.1 hj, not_leased_filled j⟩
  · intro hj
    exact List.mem_range.2 hj.1

end SpdkBufferPool

end SpdkConnector
