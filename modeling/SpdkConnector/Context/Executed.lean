import SpdkConnector.Context.Requests

/-!
# What the I/O functions do

One lemma for each function the reactors run on a request: the state it leaves, from the point of view of
the request's own worker. `execute_io_on_worker` either parks the request (starved, waiting for the
channel, or as a retry message), gives it up, or has its command in flight with a leased buffer.
-/

namespace SpdkConnector
namespace SpdkBdevContext

variable {e : Env} {s : Sys} {w : Nat} {r : Ref}

/-- The parts of the state the I/O functions leave alone. -/
def SameLife (s s' : Sys) : Prop :=
  s'.ctx = s.ctx ∧ s'.owner = s.owner ∧ s'.batches = s.batches ∧ s'.runtimeAvailable = s.runtimeAvailable ∧
  s'.device = s.device

theorem SameLife.refl (s : Sys) : SameLife s s := ⟨rfl, rfl, rfl, rfl, rfl⟩

/-- Bytes staged in a buffer that nobody leases. -/
def Scribbled (p : SpdkBufferPool) (dma dma' : Nat → Nat → UInt8) : Prop :=
  dma' = dma ∨ ∃ buffer bytes, (∀ k, p.Leased k → p.buffers.getD k 0 ≠ buffer) ∧
    dma' = Function.update dma buffer bytes

/-- How `execute_io_on_worker` leaves a request that got no command: where it parks it, or the calls that
complete it. -/
inductive Parked (r : Ref) (w : Nat) (x : Reactor) : Reactor → List IoFrame → Prop
  | starved (hini : x.pool.initialized = true) (hfree : x.pool.freeIndexes = []) :
      Parked r w x { x with pendingIo := x.pendingIo ++ [r] } []
  | waiting (hfree : x.pool.freeIndexes ≠ []) : Parked r w x { x with ioWait := x.ioWait ++ [r] } []
  | retried (hfree : x.pool.freeIndexes ≠ []) : Parked r w x { x with queue := x.queue ++ [.retryIo r] } []
  | failed (error : String) (h : x.pool.initialized = false ∨ x.pool.freeIndexes ≠ []) :
      Parked r w x x [.completeRequest r false error, .drainPendingIo w]

/-- `release_buffer` gives the lease back to the request's worker. -/
theorem releaseBuffer_spec (hwf : (s.reactor (s.request r).worker).pool.WF) :
    SameLife s (releaseBuffer e s r) ∧ (releaseBuffer e s r).batch = s.batch ∧
    (releaseBuffer e s r).request = Function.update s.request r { s.request r with bufferIndex := none } ∧
    (releaseBuffer e s r).reactor = Function.update s.reactor (s.request r).worker
      { s.reactor (s.request r).worker with
        pool := poolAfterRelease (s.reactor (s.request r).worker).pool (s.request r).bufferIndex } := by
  cases hb : (s.request r).bufferIndex with
  | none =>
    have hq : { s.request r with bufferIndex := none } = s.request r := by rw [← hb]
    simp [releaseBuffer, hb, poolAfterRelease, hq, SameLife]
  | some k =>
    by_cases hl : (s.reactor (s.request r).worker).pool.Leased k
    · simp only [releaseBuffer, hb, SpdkBufferPool.release_leased hwf hl, poolAfterRelease]
      exact ⟨.refl s, rfl, rfl, rfl⟩
    · obtain ⟨x, hx⟩ := SpdkBufferPool.release_unleased hwf hl
      simp [releaseBuffer, hb, hx, poolAfterRelease, Sys.setRequest, SameLife]

/-- What `submitIo_spec` and `executeIo_spec` say: parked or given up, or in flight. -/
def Executed (e : Env) (s : Sys) (w : Nat) (r : Ref) (s' : Sys) (frames : List IoFrame) : Prop :=
  SameLife s s' ∧ s'.batch = s.batch ∧ ∃ q',
    ((∃ dma x, s'.request = Function.update s.request r q' ∧
        Scribbled (s.reactor w).pool (s.reactor w).dma dma ∧
        Parked r w { s.reactor w with dma } x frames ∧ s'.reactor = Function.update s.reactor w x) ∨
      ∃ k rest, (s.reactor w).pool.initialized = true ∧ (s.reactor w).pool.freeIndexes = k :: rest ∧
        frames = [] ∧ s'.request = Function.update s.request r { q' with bufferIndex := some k } ∧
        s'.reactor = Function.update s.reactor w
          (let x := s.reactor w
           let buffer := x.pool.buffers.getD k 0
           { x with
             pool := { x.pool with freeIndexes := rest, inUse := x.pool.inUse.set k true }
             dma := Function.update x.dma buffer
               (if (s.request r).operation = .write then
                  stagedByte (s.batch r.1).memory (s.request r).item (x.dma buffer)
                else x.dma buffer)
             inFlight := x.inFlight ++ [commandFor e r (s.request r) buffer] })) ∧
    SameIo (s.request r) q'

/-- A free buffer is not the buffer of a lease. -/
theorem free_not_leased {p : SpdkBufferPool} {k : Nat} {rest : List Nat} (hwf : p.WF) (hnd : p.buffers.Nodup)
    (hfree : p.freeIndexes = k :: rest) : ∀ j, p.Leased j → p.buffers.getD j 0 ≠ p.buffers.getD k 0 := by
  intro j hj he
  obtain ⟨hk, hno⟩ := (hwf.free_iff k).1 (by simp [hfree])
  have hj' := hwf.leased_lt hj
  have hjk : j = k := by
    simp only [List.getD_eq_getElem?_getD, List.getElem?_eq_getElem hj', List.getElem?_eq_getElem hk,
      Option.getD_some] at he
    exact (List.getElem_inj hnd).1 he
  exact hno (hjk ▸ hj)

/-- `execute_io_on_worker` on the request's own worker. -/
theorem executeIo_spec (hw : (s.request r).worker = w) (hwf : (s.reactor w).pool.WF)
    (hnd : (s.reactor w).pool.buffers.Nodup)
    (hb : (s.request r).bufferIndex = none) (submitResult waitResult sendResult : Int) :
    Executed e s w r (executeIo e s w r submitResult waitResult sendResult).1
      (executeIo e s w r submitResult waitResult sendResult).2 := by
  subst hw
  rcases SpdkBufferPool.tryAcquire_cases hwf with ⟨hini, hacq⟩ | ⟨hini, hfree, hacq⟩ |
    ⟨k, rest, hini, hfree, hk, hlt, hacq⟩
  · simp only [executeIo, ne_eq, not_true_eq_false, if_false, Sys.setRequest, Sys.setReactor, hacq, failIo,
      releaseBuffer, Function.update_self, hb]
    exact ⟨.refl s, rfl, _, .inl ⟨_, _, rfl, .inl rfl, .failed _ (.inl hini), rfl⟩,
      ⟨rfl, rfl, rfl, rfl, hb.symm, rfl, rfl, rfl, rfl⟩⟩
  · simp only [executeIo, ne_eq, not_true_eq_false, if_false, Sys.setRequest, Sys.setReactor, hacq,
      Function.update_idem]
    exact ⟨.refl s, rfl, _, .inl ⟨_, _, rfl, .inl rfl, .starved hini hfree, rfl⟩,
      ⟨rfl, rfl, rfl, rfl, rfl, rfl, rfl, rfl, rfl⟩⟩
  · have hsome : (s.reactor (s.request r).worker).pool.freeIndexes ≠ [] := by simp [hfree]
    have hacquired := hwf.acquired hfree hini
    have hdata := SpdkBufferPool.data_leased (i := k) hacquired
      ((SpdkBufferPool.leased_set_true (hwf.lengths ▸ hlt) k rest).2 (.inl rfl))
    have hrel := SpdkBufferPool.release_acquired hwf hini hfree
    simp only [executeIo, ne_eq, not_true_eq_false, if_false, Sys.setRequest, Sys.setReactor, hacq,
      Function.update_idem, submitIo, Function.update_self, hdata]
    -- the buffer a write stages its bytes in is free until the command is accepted
    have hscr : Scribbled (s.reactor (s.request r).worker).pool (s.reactor (s.request r).worker).dma
        (if (s.request r).operation = .write then
          Function.update (s.reactor (s.request r).worker).dma
            ((s.reactor (s.request r).worker).pool.buffers.getD k 0)
            (stagedByte (s.batch r.1).memory (s.request r).item
              ((s.reactor (s.request r).worker).dma ((s.reactor (s.request r).worker).pool.buffers.getD k 0)))
        else (s.reactor (s.request r).worker).dma) := by
      split
      · exact .inr ⟨_, _, free_not_leased hwf hnd hfree, rfl⟩
      · exact .inl rfl
    split
    · simp only [releaseBuffer, Function.update_self, hrel, Function.update_idem, Sys.setRequest, Sys.setReactor,
        Sys.post]
      split
      · exact ⟨.refl s, rfl, _, .inl ⟨_, _, rfl, hscr, .waiting hsome, rfl⟩,
          ⟨rfl, rfl, rfl, rfl, hb.symm, rfl, rfl, rfl, rfl⟩⟩
      · split
        · exact ⟨.refl s, rfl, _, .inl ⟨_, _, rfl, hscr, .retried hsome, rfl⟩,
            ⟨rfl, rfl, rfl, rfl, hb.symm, rfl, rfl, rfl, rfl⟩⟩
        · exact ⟨.refl s, rfl, _, .inl ⟨_, _, rfl, hscr, .failed _ (.inr hsome), rfl⟩,
            ⟨rfl, rfl, rfl, rfl, hb.symm, rfl, rfl, rfl, rfl⟩⟩
    · split
      · simp only [failIo, releaseBuffer, Function.update_self, hrel, Function.update_idem, Sys.setRequest,
          Sys.setReactor]
        exact ⟨.refl s, rfl, _, .inl ⟨_, _, rfl, hscr, .failed _ (.inr hsome), rfl⟩,
          ⟨rfl, rfl, rfl, rfl, hb.symm, rfl, rfl, rfl, rfl⟩⟩
      · refine ⟨.refl s, rfl, { s.request r with
          started := true, bufferWaiting := false, immediateSubmitResult := submitResult
          blockOffset := (s.request r).item.byteOffset / e.geometry.blockSize
          blockCount := (s.request r).item.physicalLength / e.geometry.blockSize },
          .inr ⟨k, rest, hini, hfree, rfl, rfl, ?_⟩, ⟨rfl, rfl, rfl, rfl, rfl, rfl, rfl, rfl, rfl⟩⟩
        simp only [commandFor]
        congr 2
        split
        · rfl
        · simp

/-- `complete_io_on_worker` after `spdk_bdev_free_io`: a read that succeeded is copied if its lease still
stands, the lease is given back, and the request goes on to `complete_request`. -/
theorem completeIo_spec {k : Nat} (hwf : (s.reactor (s.request r).worker).pool.WF)
    (hk : (s.request r).bufferIndex = some k) (success : Bool) :
    ∃ success' error,
      (completeIo e s r success).2 =
        [.completeRequest r success' error, .drainPendingIo (s.request r).worker] ∧
      SameLife s (completeIo e s r success).1 ∧
      (completeIo e s r success).1.reactor = Function.update s.reactor (s.request r).worker
        { s.reactor (s.request r).worker with
          pool := poolAfterRelease (s.reactor (s.request r).worker).pool (some k) } ∧
      ((success = true ∧ (s.request r).operation = .read ∧
          (s.reactor (s.request r).worker).pool.Leased k ∧ success' = true ∧
          ∃ bytes, bytes = (List.range (s.request r).item.logicalLength).map
              ((s.reactor (s.request r).worker).dma
                ((s.reactor (s.request r).worker).pool.buffers.getD k 0)) ∧
            (completeIo e s r success).1.batch = Function.update s.batch r.1 { s.batch r.1 with
              memory := copyToCaller (s.batch r.1).memory (s.request r).item bytes } ∧
            (completeIo e s r success).1.request = Function.update s.request r
              { s.request r with copied := some bytes, bufferIndex := none }) ∨
        ((success' = true ↔ success = true ∧ (s.request r).operation ≠ .read) ∧
          (completeIo e s r success).1.batch = s.batch ∧
          (completeIo e s r success).1.request = Function.update s.request r
            { s.request r with bufferIndex := none })) := by
  by_cases hread : success = true ∧ (s.request r).operation = .read
  · by_cases hl : (s.reactor (s.request r).worker).pool.Leased k
    · let bytes := (List.range (s.request r).item.logicalLength).map
        ((s.reactor (s.request r).worker).dma ((s.reactor (s.request r).worker).pool.buffers.getD k 0))
      let memory := copyToCaller (s.batch r.1).memory (s.request r).item bytes
      have heq : completeIo e s r success = (releaseBuffer e ((s.setBatch r.1 { s.batch r.1 with memory }).setRequest
          r { s.request r with copied := some bytes }) r,
          [.completeRequest r success "", .drainPendingIo (s.request r).worker]) := by
        have hdata : (s.reactor (s.request r).worker).pool.data ((s.request r).bufferIndex.getD 0) =
            .ok ((s.reactor (s.request r).worker).pool.buffers.getD k 0) := by
          rw [hk]
          exact SpdkBufferPool.data_leased hwf hl
        unfold completeIo
        rw [if_pos hread, hdata]
      rw [heq]
      simp only [releaseBuffer, Sys.setBatch, Sys.setRequest, Function.update_self, hk,
        SpdkBufferPool.release_leased hwf hl, Sys.setReactor, poolAfterRelease, Function.update_idem]
      exact ⟨success, "", rfl, .refl s, trivial, .inl ⟨hread.1, hread.2, hl, hread.1, _, rfl, rfl, rfl⟩⟩
    · obtain ⟨x, hx⟩ := SpdkBufferPool.data_refused hwf hl
      have heq : completeIo e s r success = failIo e s r x.what := by
        unfold completeIo
        rw [if_pos hread, hk, Option.getD_some, hx]
      obtain ⟨h1, h2, h3, h4⟩ := releaseBuffer_spec (e := e) (s := s) (r := r) hwf
      rw [heq, failIo]
      rw [hk] at h4
      exact ⟨false, x.what, rfl, h1, h4, .inr ⟨⟨nofun, fun h => absurd hread.2 h.2⟩, h2, h3⟩⟩
  · have heq : completeIo e s r success = (releaseBuffer e s r,
        [.completeRequest r success (if success then "" else "SPDK bdev I/O failed"),
          .drainPendingIo (s.request r).worker]) := by
      unfold completeIo
      rw [if_neg hread]
    obtain ⟨h1, h2, h3, h4⟩ := releaseBuffer_spec (e := e) (s := s) (r := r) hwf
    rw [heq]
    rw [hk] at h4
    exact ⟨success, _, rfl, h1, h4, .inr ⟨⟨fun hs => ⟨hs, fun ho => hread ⟨hs, ho⟩⟩, fun h => h.1⟩, h2, h3⟩⟩

/-- The critical section of `complete_request` for a request not yet completed. -/
theorem completeRequest_spec (hc : (s.request r).completed = false) (success : Bool) (error : String) :
    SameLife s (completeRequest s r success error).1 ∧
    (completeRequest s r success error).1.reactor = s.reactor ∧
    (completeRequest s r success error).1.request = Function.update s.request r { s.request r with
      completions := (s.request r).completions + 1, completed := true } ∧
    (completeRequest s r success error).1.batch = Function.update s.batch r.1 { s.batch r.1 with
      results := (s.batch r.1).results.set (s.request r).resultIndex ⟨success, error⟩
      remaining := sub64 (s.batch r.1).remaining 1 } ∧
    ((completeRequest s r success error).2 = true ↔ sub64 (s.batch r.1).remaining 1 = 0) := by
  simp only [completeRequest, hc, Bool.false_eq_true, if_false, Sys.setRequest, Sys.setBatch]
  exact ⟨.refl s, trivial, trivial, trivial, by simp⟩

end SpdkBdevContext
end SpdkConnector
