import SpdkConnector.Context.Tracking

/-!
# The I/O callbacks are moves

A step of a reactor that starts a callback, or runs a part of one of the I/O functions, does nothing to a
request but moves, and keeps track of them. One theorem for each function.
-/

namespace SpdkConnector
namespace SpdkBdevContext

open Interleaving

variable {e : Env} {s s' : Sys} {κ : Core} {w : Nat} {x : Reactor}

/-- The step to `s'` is a sequence of moves, with no new marks but these. -/
def Follows (e : Env) (s' : Sys) (κ : Core) (marks : Mark → Prop) : Prop :=
  ∃ κ', Moves e κ κ' ∧ Tracks s' κ' ∧ ∀ m, κ'.marks m → κ.marks m ∨ marks m

def noMarks : Mark → Prop := fun _ => False

theorem OneReactor.pool_eq (h : OneReactor s s' w x) (ht : Tracks s κ) :
    (fun v => (s'.reactor v).pool) = Function.update κ.pool w x.pool := by
  funext v
  rw [h.reactor, ht.pool]
  rcases eq_or_ne v w with rfl | hv
  · simp
  · simp [hv]

theorem OneReactor.dma_eq (h : OneReactor s s' w x) (ht : Tracks s κ) :
    (fun v => (s'.reactor v).dma) = Function.update κ.dma w x.dma := by
  funext v
  rw [h.reactor, ht.dma]
  rcases eq_or_ne v w with rfl | hv
  · simp
  · simp [hv]

/-- The state the moves lead to tracks the step of one reactor. -/
theorem OneReactor.tracks {κ' : Core} (h : OneReactor s s' w x) (ht : Tracks s κ)
    (hreq : κ'.request = s'.request) (hbatch : κ'.batch = s'.batch) (hdev : κ'.device = s'.device)
    (hpool : κ'.pool = Function.update κ.pool w x.pool) (hdma : κ'.dma = Function.update κ.dma w x.dma)
    (hl : Ledger (homeOf s'.request) (shown s') κ'.stage) (hx : TidyReactor w x) : Tracks s' κ' where
  request := hreq
  batch := hbatch
  pool := hpool.trans (h.pool_eq ht).symm
  dma := hdma.trans (h.dma_eq ht).symm
  device := hdev
  ledger := hl
  tidy := h.tidy ht.tidy hx

/-- One reactor changes its queue, its frames or its lists, and no request does. -/
theorem follows_quiet (ht : Tracks s κ) (h : OneReactor s s' w x) (hreq : s'.request = s.request)
    (hbatch : s'.batch = s.batch) (hdev : s'.device = s.device) (hpool : x.pool = (s.reactor w).pool)
    (hdma : x.dma = (s.reactor w).dma) (hent : x.entries.Perm (s.reactor w).entries)
    (hx : TidyReactor w x) : Follows e s' κ noMarks := by
  refine ⟨κ, .refl, h.tracks ht ?_ ?_ ?_ ?_ ?_ (h.shuffle ht.ledger hent) hx, fun _ => .inl⟩
  · rw [hreq, ht.request]
  · rw [hbatch, ht.batch]
  · rw [hdev, ht.device]
  · simp [hpool, ht.pool]
  · simp [hdma, ht.dma]

theorem setReactor_one (s : Sys) (w : Nat) (x : Reactor) : OneReactor s (s.setReactor w x) w x :=
  ⟨rfl, fun _ => rfl, fun _ => rfl, rfl⟩

/-- An idle reactor starts a callback. -/
theorem pickUp_follows (ht : Tracks s κ) {c : Choice} (hidle : (s.reactor w).stack = [])
    (hok : completionAllowed e s w c = true) (hs : pickUp s w c = some s') :
    Follows e s' κ noMarks := by
  have htidy := ht.tidy.reactor w
  unfold pickUp at hs
  split at hs
  · -- a message
    dsimp only at hs
    split at hs
    · cases hs
    · rename_i m rest hq
      cases hs
      refine follows_quiet ht (setReactor_one s w _) rfl rfl rfl rfl rfl ?_ ⟨htidy.pool, htidy.buffers, ?_, ?_⟩
      · rw [List.perm_iff_count]
        intro y
        rw [count_entries, count_entries]
        simp only [hq, hidle, List.flatMap_cons, List.flatMap_nil, List.count_append, List.count_nil, Msg.entries]
        omega
      · intro f hf
        simp only [List.mem_singleton] at hf
        subst hf
        cases m <;> exact trivial
      · intro d hd
        exact htidy.posted d (by rw [hq]; exact List.mem_cons_of_mem _ hd)
  · -- the callback of a command
    rename_i k success
    dsimp only at hs
    split at hs
    · cases hs
    · rename_i c hk
      cases hs
      have hmem : c ∈ (s.reactor w).inFlight := List.mem_of_getElem? hk
      obtain ⟨hst, hworker⟩ := ht.entry (entries_command hmem)
      obtain ⟨hlt, hget⟩ := List.getElem?_eq_some_iff.1 hk
      have hperm := List.getElem_cons_eraseIdx_perm hlt
      rw [hget] at hperm
      let q := { s.request c.request with reported := some success }
      let x := { s.reactor w with
        inFlight := (s.reactor w).inFlight.eraseIdx k, stack := [.io (.freeIo c.request success)] }
      have hone : OneReactor s ((s.setReactor w x).setRequest c.request q) w x := by
        refine ⟨rfl, fun _ => rfl, fun r => ?_, rfl⟩
        rcases eq_or_ne r c.request with rfl | hr
        · simp [Sys.setRequest, q]
        · simp [Sys.setRequest, Sys.setReactor, hr]
      have hrest : (s.reactor w).entries.Perm ((c.request, .inFlight c) ::
          ((s.reactor w).queue.flatMap Msg.entries ++ ((s.reactor w).pendingIo.map (·, .queued) ++
            (((s.reactor w).inFlight.eraseIdx k).map (fun c => (c.request, .inFlight c)) ++
              (s.reactor w).ioWait.map (·, .queued))))) := by
        have hc := (hperm.map fun c => ((c.request, .inFlight c) : Ref × Stage)).symm
        rw [List.perm_iff_count] at hc ⊢
        intro y
        have := hc y
        rw [count_entries]
        simp only [hidle, List.flatMap_nil, List.count_nil, List.map_cons, List.count_cons, List.count_append] at this ⊢
        omega
      refine ⟨(κ.setStage c.request (.reported success)).setRequest c.request
          { κ.request c.request with reported := some success }, .single (.report c.request c success hst ?_),
        hone.tracks ht ?_ ht.batch ht.device ?_ ?_ (hone.turn ht.ledger hrest (b := .reported success) ?_ rfl)
          ⟨htidy.pool, htidy.buffers, ?_, htidy.posted⟩, fun _ => .inl⟩
      · intro hsucc
        subst hsucc
        simp only [completionAllowed, hk, Bool.and_eq_true, beq_iff_eq, Bool.not_eq_true'] at hok
        exact hok
      · simp [ht.request, Sys.setRequest, q, Sys.setReactor]
      · simp [ht.pool, x]
      · simp [ht.dma, x]
      · rw [List.perm_iff_count]
        intro y
        rw [count_entries]
        simp only [x, List.flatMap_cons, List.flatMap_nil, List.count_cons, List.count_append, List.count_nil,
          Frame.entries, IoFrame.entries]
        omega
      · simp [x, Frame.Local]
  · -- an io_wait callback
    rename_i k
    dsimp only at hs
    split at hs
    · cases hs
    · rename_i r hk
      split at hs
      · cases hs
        obtain ⟨hlt, hget⟩ := List.getElem?_eq_some_iff.1 hk
        have hperm := (List.getElem_cons_eraseIdx_perm hlt).map fun r => ((r, .queued) : Ref × Stage)
        rw [hget] at hperm
        refine follows_quiet ht (setReactor_one s w _) rfl rfl rfl rfl rfl ?_
          ⟨htidy.pool, htidy.buffers, by simp [Frame.Local], htidy.posted⟩
        rw [List.perm_iff_count] at hperm ⊢
        intro y
        have := hperm y
        rw [count_entries, count_entries]
        simp only [hidle, List.flatMap_cons, List.flatMap_nil, List.count_append, List.count_cons, List.count_nil,
          List.map_cons, Frame.entries, IoFrame.entries] at this ⊢
        omega
      · cases hs
  · split at hs
    · cases hs
      refine follows_quiet ht (setReactor_one s w _) rfl rfl rfl rfl rfl ?_
        ⟨htidy.pool, htidy.buffers, by simp [Frame.Local], htidy.posted⟩
      simp [Reactor.entries, hidle, Frame.entries]
    · cases hs
  · split at hs
    · cases hs
      refine follows_quiet ht (setReactor_one s w _) rfl rfl rfl rfl rfl ?_
        ⟨htidy.pool, htidy.buffers, by simp [Frame.Local], htidy.posted⟩
      simp [Reactor.entries, hidle, Frame.entries]
    · cases hs
  · cases hs

/-! ## The I/O callbacks -/

theorem entries_pop {f : Frame} {rest : List Frame} (h : x.stack = f :: rest) :
    x.entries.Perm (f.entries ++ { x with stack := rest }.entries) := by
  rw [List.perm_iff_count]
  intro y
  simp only [List.count_append, count_entries, h, List.flatMap_cons]
  omega

theorem entries_push (fs rest : List Frame) :
    { x with stack := fs ++ rest }.entries.Perm (fs.flatMap Frame.entries ++ { x with stack := rest }.entries) := by
  rw [List.perm_iff_count]
  intro y
  simp only [List.count_append, count_entries, List.flatMap_append]
  omega

/-- A reactor whose callback has left `s1` and pushed its calls. -/
theorem pushed_one {s1 : Sys} {y : Reactor} {l m : List Frame}
    (hr : s1.reactor = Function.update (s.setReactor w { s.reactor w with stack := l }).reactor w y)
    (hcaller : ∀ b, (s1.batch b).caller = (s.batch b).caller)
    (hworker : ∀ r, (s1.request r).worker = (s.request r).worker) (hbatches : s1.batches = s.batches) :
    OneReactor s (s1.setReactor w { s1.reactor w with stack := m }) w { y with stack := m } := by
  refine ⟨?_, hcaller, hworker, hbatches⟩
  simp [Sys.setReactor, hr]

theorem worker_update {r : Ref} {q : IoRequest} (hq : q.worker = (s.request r).worker) (r' : Ref) :
    (Function.update s.request r q r').worker = (s.request r').worker := by
  rcases eq_or_ne r' r with rfl | hr
  · simpa using hq
  · simp [hr]

theorem scribbled_moves {dma : Nat → Nat → UInt8} (h : Scribbled (κ.pool w) (κ.dma w) dma) :
    Moves e κ { κ with dma := Function.update κ.dma w dma } := by
  rcases h with rfl | ⟨buffer, bytes, hfree, rfl⟩
  · rw [Function.update_eq_self]
  · exact .single (.scribble w buffer bytes hfree)

/-- A parked request is on its reactor as before; one given up is about to be completed. -/
theorem Parked.spec {r : Ref} {x1 : Reactor} {fs : List IoFrame} (h : Parked r w x x1 fs) :
    (x1.pool = x.pool ∧ x1.dma = x.dma ∧ ∀ d, .executeWorkerBatch d ∈ x1.queue → .executeWorkerBatch d ∈ x.queue) ∧
    ((fs = [] ∧ ∀ stack, { x1 with stack }.entries.Perm ((r, .queued) :: { x with stack }.entries)) ∨
      ∃ error, fs = [.completeRequest r false error, .drainPendingIo w] ∧ x1 = x) := by
  cases h with
  | starved =>
    refine ⟨⟨rfl, rfl, fun d hd => hd⟩, .inl ⟨rfl, fun stack => ?_⟩⟩
    rw [List.perm_iff_count]
    intro y
    simp only [count_entries, List.map_append, List.count_append, List.map_cons, List.map_nil, List.count_cons,
      List.count_nil]
    omega
  | waiting =>
    refine ⟨⟨rfl, rfl, fun d hd => hd⟩, .inl ⟨rfl, fun stack => ?_⟩⟩
    rw [List.perm_iff_count]
    intro y
    simp only [count_entries, List.map_append, List.count_append, List.map_cons, List.map_nil, List.count_cons,
      List.count_nil]
    omega
  | retried =>
    refine ⟨⟨rfl, rfl, fun d hd => by simpa using hd⟩, .inl ⟨rfl, fun stack => ?_⟩⟩
    rw [List.perm_iff_count]
    intro y
    simp only [count_entries, List.flatMap_append, List.count_append, List.flatMap_cons, List.flatMap_nil,
      List.append_nil, Msg.entries, Msg.frame, Frame.entries, IoFrame.entries, List.count_cons, List.count_nil]
    omega
  | failed error => exact ⟨⟨rfl, rfl, fun d hd => hd⟩, .inr ⟨error, rfl, rfl⟩⟩

theorem commandFor_congr {r : Ref} {q q' : IoRequest} (h : SameIo q q') (buffer : Nat) :
    commandFor e r q' buffer = commandFor e r q buffer := by
  simp [commandFor, h.2.2.1, h.2.2.2.1]

/-- `execute_io_on_worker`. -/
theorem executeIo_follows (ht : Tracks s κ) (hc : Consistent e κ) {r : Ref} {rest : List Frame}
    (hst : (s.reactor w).stack = .io (.executeIo r) :: rest) {s1 : Sys} {fs : List IoFrame}
    {submitResult waitResult sendResult : Int}
    (h : executeIo e (s.setReactor w { s.reactor w with stack := rest }) w r submitResult waitResult
      sendResult = (s1, fs)) :
    Follows e (s1.setReactor w { s1.reactor w with stack := fs.map .io ++ rest }) κ noMarks := by
  have htidy := ht.tidy.reactor w
  obtain ⟨hstage, hw⟩ := ht.entry (y := (r, .queued)) (entries_frame (hst ▸ List.mem_cons_self)
    (by simp [Frame.entries, IoFrame.entries]))
  simp only at hstage hw
  have hfits := hc.fits r
  rw [hstage, ht.request] at hfits
  have hpopped : ((s.setReactor w { s.reactor w with stack := rest }).reactor w) =
      { s.reactor w with stack := rest } := by simp [Sys.setReactor]
  have hspec := executeIo_spec (e := e) (s := s.setReactor w { s.reactor w with stack := rest }) (w := w)
    (r := r) hw (by rw [hpopped]; exact htidy.pool) (by rw [hpopped]; exact htidy.buffers) hfits.2.2.1
    submitResult waitResult sendResult
  rw [h] at hspec
  obtain ⟨⟨-, -, hbatches, -, hdev⟩, hbatch, q', hcase, hsame⟩ := hspec
  rw [hpopped] at hcase
  dsimp only [Sys.setReactor] at hbatches hdev hbatch hcase hsame
  have hpop : (s.reactor w).entries.Perm ((r, .queued) :: { s.reactor w with stack := rest }.entries) :=
    entries_pop hst
  have hpool : κ.pool w = (s.reactor w).pool := by rw [ht.pool]
  have hdma : κ.dma w = (s.reactor w).dma := by rw [ht.dma]
  have hframes : ∀ f ∈ rest, f.Local w := fun f hf => htidy.frames f (hst ▸ List.mem_cons_of_mem _ hf)
  have hnote : Moves e κ (κ.setRequest r q') := .single (.note r q' (ht.request ▸ hsame))
  rcases hcase with ⟨dma, x1, hreq, hscr, hparked, hreactor⟩ | ⟨k, free, hini, hfree, rfl, hreq, hreactor⟩
  · -- parked, or given up
    have hone : OneReactor s (s1.setReactor w { s1.reactor w with stack := fs.map .io ++ rest }) w
        { x1 with stack := fs.map .io ++ rest } :=
      pushed_one hreactor (fun b => by rw [hbatch]) (fun r' => by rw [hreq]; exact worker_update (by exact hsame.1) r') hbatches
    have hmoves := hnote.trans (scribbled_moves (e := e) (κ := κ.setRequest r q') (w := w)
      (by simpa [hpool, hdma] using hscr))
    obtain ⟨⟨h1, h2, h3⟩, ⟨rfl, hent⟩ | ⟨error, rfl, rfl⟩⟩ := hparked.spec
    · refine ⟨_, hmoves, hone.tracks ht ?_ ?_ ?_ ?_ ?_ (hone.shuffle ht.ledger ?_) ?_, fun _ => .inl⟩
      · simp [Sys.setReactor, hreq, ht.request]
      · simp [Sys.setReactor, hbatch, ht.batch]
      · simp [Sys.setReactor, hdev, ht.device]
      · simp [h1, ht.pool]
      · simp [h2]
      · exact (hent rest).trans hpop.symm
      · exact ⟨h1 ▸ htidy.pool, h1 ▸ htidy.buffers, hframes, fun d hd => htidy.posted d (h3 d hd)⟩
    · refine ⟨_, hmoves.tail (.abandon r (.inl hstage)), hone.tracks ht ?_ ?_ ?_ ?_ ?_
        (hone.turn ht.ledger hpop (b := .closing false) ?_ rfl) ?_, fun _ => .inl⟩
      · simp [Sys.setReactor, hreq, ht.request]
      · simp [Sys.setReactor, hbatch, ht.batch]
      · simp [Sys.setReactor, hdev, ht.device]
      · simp [ht.pool]
      · simp
      · exact entries_push (x := { s.reactor w with dma }) [.io (.completeRequest r false error),
          .io (.drainPendingIo w)] rest
      · refine ⟨htidy.pool, htidy.buffers, ?_, htidy.posted⟩
        simpa [Frame.Local] using hframes
  · -- in flight
    have hone := pushed_one (s := s) (w := w) (m := rest) hreactor (fun b => by rw [hbatch])
      (fun r' => by rw [hreq]; exact worker_update (by exact hsame.1) r') hbatches
    have haccept : Move e (κ.setRequest r q') ((κ.setRequest r q').accept e r k free) := by
      refine .accept r k free hstage ?_ ?_
      · simp [hsame.1, hw, hpool, hini]
      · simp [hsame.1, hw, hpool, hfree]
    have hledger := hone.turn ht.ledger hpop
      (b := .inFlight (commandFor e r (s.request r) ((s.reactor w).pool.buffers.getD k 0))) (by
        rw [List.perm_iff_count]
        intro y
        simp only [count_entries, List.map_append, List.count_append, List.map_cons, List.map_nil, List.count_cons,
          List.count_nil, commandFor]
        omega) rfl
    refine ⟨_, hnote.tail haccept, hone.tracks ht ?_ ?_ ?_ ?_ ?_ ?_ ?_, fun _ => .inl⟩
    · simp [Core.accept, Sys.setReactor, hreq, ht.request]
    · simp [Core.accept, Sys.setReactor, hbatch, ht.batch]
    · simp [Core.accept, Sys.setReactor, hdev, ht.device]
    · simp [Core.accept, hsame.1, hw, hpool]
    · simp [Core.accept, hsame.1, hsame.2.2.1, hsame.2.2.2.1, hw, hpool, hdma, ht.batch]
    · have hstage' : ((κ.setRequest r q').accept e r k free).stage = Function.update κ.stage r
          (.inFlight (commandFor e r (s.request r) ((s.reactor w).pool.buffers.getD k 0))) := by
        simp [Core.accept, hsame.1, hw, hpool, commandFor_congr hsame]
      rw [hstage']
      exact hledger
    · exact ⟨htidy.pool.acquired hfree hini, htidy.buffers, hframes, htidy.posted⟩

/-- `complete_io_on_worker` after `spdk_bdev_free_io`. -/
theorem completeIo_follows (ht : Tracks s κ) (hc : Consistent e κ) {r : Ref} {success : Bool} {rest : List Frame}
    (hst : (s.reactor w).stack = .io (.completeIo r success) :: rest) {s1 : Sys} {fs : List IoFrame}
    (h : completeIo e (s.setReactor w { s.reactor w with stack := rest }) r success = (s1, fs)) :
    Follows e (s1.setReactor w { s1.reactor w with stack := fs.map .io ++ rest }) κ noMarks := by
  have htidy := ht.tidy.reactor w
  obtain ⟨hstage, hw⟩ := ht.entry (y := (r, .reported success)) (entries_frame (hst ▸ List.mem_cons_self)
    (by simp [Frame.entries, IoFrame.entries]))
  simp only at hstage hw
  have hfits := hc.fits r
  rw [hstage, ht.request] at hfits
  obtain ⟨k, hk⟩ := Option.ne_none_iff_exists'.1 hfits.2.2.1
  have hpopped : ((s.setReactor w { s.reactor w with stack := rest }).reactor w) =
      { s.reactor w with stack := rest } := by simp [Sys.setReactor]
  have hspec := completeIo_spec (e := e) (s := s.setReactor w { s.reactor w with stack := rest }) (r := r)
    (by rw [show (s.setReactor w { s.reactor w with stack := rest }).request = s.request from rfl, hw, hpopped]
        exact htidy.pool) hk success
  rw [h] at hspec
  obtain ⟨success', error, hframes', ⟨-, -, hbatches, -, hdev⟩, hreactor, hcase⟩ := hspec
  rw [show (s.setReactor w { s.reactor w with stack := rest }).request = s.request from rfl] at hframes' hreactor hcase
  rw [hw, hpopped] at hreactor hcase
  rw [hw] at hframes'
  dsimp only [Sys.setReactor] at hbatches hdev hcase hframes'
  subst hframes'
  have hpop : (s.reactor w).entries.Perm ((r, .reported success) :: { s.reactor w with stack := rest }.entries) :=
    entries_pop hst
  have hpool : κ.pool w = (s.reactor w).pool := by rw [ht.pool]
  have hdma : κ.dma w = (s.reactor w).dma := by rw [ht.dma]
  have hrest : ∀ f ∈ rest, f.Local w := fun f hf => htidy.frames f (hst ▸ List.mem_cons_of_mem _ hf)
  have htidy' : TidyReactor w { s.reactor w with
      pool := poolAfterRelease (s.reactor w).pool (some k)
      stack := [.io (.completeRequest r success' error), .io (.drainPendingIo w)] ++ rest } := by
    refine ⟨?_, ?_, by simpa [Frame.Local] using hrest, htidy.posted⟩
    · by_cases hl : (s.reactor w).pool.Leased k
      · simpa [poolAfterRelease, SpdkBufferPool.release_leased htidy.pool hl] using htidy.pool.released hl
      · obtain ⟨x, hx⟩ := SpdkBufferPool.release_unleased htidy.pool hl
        simpa [poolAfterRelease, hx] using htidy.pool
    · by_cases hl : (s.reactor w).pool.Leased k
      · simpa [poolAfterRelease, SpdkBufferPool.release_leased htidy.pool hl] using htidy.buffers
      · obtain ⟨x, hx⟩ := SpdkBufferPool.release_unleased htidy.pool hl
        simpa [poolAfterRelease, hx] using htidy.buffers
  rcases hcase with ⟨rfl, hop, hl, rfl, bytes, rfl, hbatch, hreq⟩ | ⟨hs, hbatch, hreq⟩
  · -- the bytes are copied
    have hone := pushed_one (s := s) (w := w) (m := [.io (.completeRequest r true error),
      .io (.drainPendingIo w)] ++ rest) hreactor (fun b => by
        rw [hbatch]
        rcases eq_or_ne b r.1 with rfl | hb
        · simp
        · simp [hb]) (fun r' => by rw [hreq]; exact worker_update (by rfl) r') hbatches
    refine ⟨_, .single (.deliver r k hstage (by rw [ht.request]; exact hop) (by rw [ht.request]; exact hk)
        (by rw [ht.request, hw, hpool]; exact hl)), hone.tracks ht ?_ ?_ ?_ ?_ ?_
      (hone.turn ht.ledger hpop (b := .closing true) ?_ rfl) htidy', fun _ => .inl⟩
    · simp [Core.copy, Core.finish, Core.stagedBytes, Sys.setReactor, hreq, ht.request, hw, hpool, hdma]
    · simp [Core.copy, Core.finish, Core.stagedBytes, Sys.setReactor, hbatch, ht.request, ht.batch, hw, hpool, hdma]
    · simp [Core.copy, Core.finish, Sys.setReactor, hdev, ht.device]
    · simp [Core.copy, Core.finish, ht.request, hw, hpool, hk]
    · simp [Core.copy, Core.finish, ← hdma]
    · exact entries_push (x := { s.reactor w with pool := poolAfterRelease (s.reactor w).pool (some k) })
        [.io (.completeRequest r true error), .io (.drainPendingIo w)] rest
  · have hone := pushed_one (s := s) (w := w) (m := [.io (.completeRequest r success' error),
      .io (.drainPendingIo w)] ++ rest) hreactor (fun b => by rw [hbatch])
      (fun r' => by rw [hreq]; exact worker_update (by rfl) r') hbatches
    refine ⟨_, .single (.finish r success success' hstage (by rw [ht.request]; exact hs)),
      hone.tracks ht ?_ ?_ ?_ ?_ ?_ (hone.turn ht.ledger hpop (b := .closing success') ?_ rfl) htidy', fun _ => .inl⟩
    · simp [Core.finish, Sys.setReactor, hreq, ht.request]
    · simp [Core.finish, Sys.setReactor, hbatch, ht.batch]
    · simp [Core.finish, Sys.setReactor, hdev, ht.device]
    · simp [Core.finish, ht.request, hw, hpool, hk]
    · simp [Core.finish, ← hdma]
    · exact entries_push (x := { s.reactor w with pool := poolAfterRelease (s.reactor w).pool (some k) })
        [.io (.completeRequest r success' error), .io (.drainPendingIo w)] rest

/-- A frame that only moves the reactor's own requests around. -/
theorem frame_quiet (ht : Tracks s κ) {f : Frame} {rest : List Frame} (hst : (s.reactor w).stack = f :: rest)
    (x1 : Reactor) (fs : List Frame) (hpool : x1.pool = (s.reactor w).pool) (hdma : x1.dma = (s.reactor w).dma)
    (hqueue : x1.queue = (s.reactor w).queue) (hlocal : ∀ f' ∈ fs, f'.Local w)
    (hent : { x1 with stack := fs ++ rest }.entries.Perm
      (f.entries ++ { s.reactor w with stack := rest }.entries)) {s1 : Sys}
    (hs1 : s1.reactor = Function.update (s.setReactor w { s.reactor w with stack := rest }).reactor w x1)
    (hreq : s1.request = s.request) (hbatch : s1.batch = s.batch) (hdev : s1.device = s.device)
    (hbatches : s1.batches = s.batches) :
    Follows e (s1.setReactor w { s1.reactor w with stack := fs ++ rest }) κ noMarks := by
  have htidy := ht.tidy.reactor w
  have hone := pushed_one (s := s) (w := w) (m := fs ++ rest) hs1 (fun b => by rw [hbatch])
    (fun r => by rw [hreq]) hbatches
  refine follows_quiet ht hone hreq hbatch hdev hpool hdma (hent.trans (entries_pop hst).symm)
    ⟨hpool ▸ htidy.pool, hpool ▸ htidy.buffers, fun f' hf => ?_, fun d hd => htidy.posted d (hqueue ▸ hd)⟩
  rcases List.mem_append.1 hf with hf | hf
  · exact hlocal f' hf
  · exact htidy.frames f' (hst ▸ List.mem_cons_of_mem _ hf)

theorem update_popped (s : Sys) (w : Nat) (x y : Reactor) :
    ((s.setReactor w x).setReactor w y).reactor = Function.update (s.setReactor w x).reactor w y := rfl

/-- Moves that lead on from moves. -/
theorem Follows.trans {s1 s2 : Sys} {ms ms' : Mark → Prop} (h : Follows e s1 κ ms)
    (h' : ∀ κ', Moves e κ κ' → Tracks s1 κ' → Follows e s2 κ' ms') :
    Follows e s2 κ fun m => ms m ∨ ms' m := by
  obtain ⟨κ1, hm1, ht1, h1⟩ := h
  obtain ⟨κ2, hm2, ht2, h2⟩ := h' κ1 hm1 ht1
  refine ⟨κ2, hm1.trans hm2, ht2, fun m hm => ?_⟩
  rcases h2 m hm with hm | hm
  · exact (h1 m hm).imp_right .inl
  · exact .inr (.inr hm)

theorem Follows.mono {ms ms' : Mark → Prop} (h : Follows e s' κ ms) (hms : ∀ m, ms m → ms' m) :
    Follows e s' κ ms' := by
  obtain ⟨κ1, hm1, ht1, h1⟩ := h
  exact ⟨κ1, hm1, ht1, fun m hm => (h1 m hm).imp_right (hms m)⟩

/-- A caller moves on without touching a request. -/
theorem caller_follows (ht : Tracks s κ) {b : Nat} (pc : CallerPc) (hm : CallerMove (s.batch b) pc)
    (hrefs : pc.refs = (s.batch b).caller.refs)
    (hdisp : ∀ d ∈ pc.dispatches, d ∈ (s.batch b).caller.dispatches) :
    Follows e (s.setBatch b { s.batch b with caller := pc }) κ noMarks := by
  have hcaller : ∀ c, ((s.setBatch b { s.batch b with caller := pc }).batch c).caller =
      if c = b then pc else (s.batch c).caller := by
    intro c
    rcases eq_or_ne c b with rfl | hc
    · simp [Sys.setBatch]
    · simp [Sys.setBatch, hc]
  refine ⟨_, .single (.caller b pc (ht.batch ▸ hm)), ⟨ht.request, ?_, ht.pool, ht.dma, ht.device, ?_,
    ⟨ht.tidy.reactor, fun c d hd => ?_, fun c hc => ?_⟩⟩, fun _ => .inl⟩
  · simp [Sys.setBatch, ht.batch]
  · refine ht.ledger.shuffle fun p => ?_
    cases p with
    | worker v => exact .refl _
    | caller c =>
      simp only [shown, hcaller]
      split
      · rename_i hc
        rw [hc, hrefs]
      · exact .refl _
  · rw [hcaller] at hd
    split at hd
    · rename_i hc
      subst hc
      exact ht.tidy.dispatches c d (hdisp d hd)
    · exact ht.tidy.dispatches c d hd
  · rw [hcaller]
    have habs := ht.tidy.fresh c hc
    split
    · rename_i hcb
      subst hcb
      exact absurd habs hm.live.1
    · exact habs

/-- The critical section of `complete_request`. -/
theorem completeRequest_follows (ht : Tracks s κ) (hc : Consistent e κ) {r : Ref} {success : Bool}
    {error : String} {rest : List Frame}
    (hst : (s.reactor w).stack = .io (.completeRequest r success error) :: rest) {s1 : Sys} {done : Bool}
    (h : completeRequest (s.setReactor w { s.reactor w with stack := rest }) r success error = (s1, done)) :
    Follows e (s1.setReactor w { s1.reactor w with
      stack := (if done then [.notifyOne r.1] else [] : List IoFrame).map .io ++ rest }) κ noMarks := by
  have htidy := ht.tidy.reactor w
  obtain ⟨hstage, hw⟩ := ht.entry (y := (r, .closing success)) (entries_frame (hst ▸ List.mem_cons_self)
    (by simp [Frame.entries, IoFrame.entries]))
  simp only at hstage hw
  have hfits := hc.fits r
  rw [hstage, ht.request] at hfits
  have hspec := completeRequest_spec (s := s.setReactor w { s.reactor w with stack := rest }) (r := r)
    hfits.1 success error
  rw [h] at hspec
  obtain ⟨⟨-, -, hbatches, -, hdev⟩, hreactor, hreq, hbatch, -⟩ := hspec
  dsimp only [Sys.setReactor] at hbatches hdev hreq hbatch
  have hpop : (s.reactor w).entries.Perm ((r, .closing success) :: { s.reactor w with stack := rest }.entries) :=
    entries_pop hst
  have hframes : ∀ f ∈ rest, f.Local w := fun f hf => htidy.frames f (hst ▸ List.mem_cons_of_mem _ hf)
  let fs : List Frame := (if done then [.notifyOne r.1] else [] : List IoFrame).map .io
  have hfs : fs = [.io (.notifyOne r.1)] ∨ fs = [] := by
    simp only [fs]
    split <;> simp
  have hone : OneReactor s (s1.setReactor w { s1.reactor w with stack := fs ++ rest }) w
      { s.reactor w with stack := fs ++ rest } := by
    refine pushed_one (s := s) (w := w) (y := { s.reactor w with stack := rest }) (l := rest) ?_
      (fun b => ?_) (fun r' => ?_) hbatches
    · simpa [Sys.setReactor] using hreactor
    · rw [hbatch]
      rcases eq_or_ne b r.1 with rfl | hb
      · simp
      · simp [hb]
    · rw [hreq]
      exact worker_update (by rfl) r'
  refine ⟨_, .single (.complete r success error hstage), hone.tracks ht ?_ ?_ ?_ ?_ ?_
    (hone.drop ht.ledger hpop ?_) ⟨htidy.pool, htidy.buffers, ?_, htidy.posted⟩, fun _ => .inl⟩
  · simp [Core.complete, Sys.setReactor, hreq, ht.request]
  · simp [Core.complete, Sys.setReactor, hbatch, ht.batch, ht.request]
  · simp [Core.complete, Sys.setReactor, hdev, ht.device]
  · simp [Core.complete, ht.pool]
  · simp [Core.complete, ht.dma]
  · refine (entries_push (x := s.reactor w) fs rest).trans ?_
    rcases hfs with hfs | hfs <;> simp [hfs, Frame.entries, IoFrame.entries]
  · intro f hf
    rcases List.mem_append.1 hf with hf | hf
    · rcases hfs with hfs | hfs <;> simp [hfs] at hf
      subst hf
      trivial
    · exact hframes f hf

/-- `notify_one`. -/
theorem notifyOne_follows (ht : Tracks s κ) {b : Nat} {rest : List Frame}
    (hst : (s.reactor w).stack = .io (.notifyOne b) :: rest) (hsleep : (s.batch b).caller = .sleeping) :
    Follows e ((s.setReactor w { s.reactor w with stack := rest }).setBatch b
      { s.batch b with caller := .waiting }) κ noMarks := by
  have hpop : Follows e (s.setReactor w { s.reactor w with stack := rest }) κ noMarks := by
    have htidy := ht.tidy.reactor w
    refine follows_quiet ht (setReactor_one s w _) rfl rfl rfl rfl rfl (entries_pop hst).symm
      ⟨htidy.pool, htidy.buffers, fun f hf => htidy.frames f (hst ▸ List.mem_cons_of_mem _ hf), htidy.posted⟩
  have := hpop.trans fun κ' _ ht' => caller_follows (e := e) ht' (b := b) .waiting
    ⟨by simp [Sys.setReactor, hsleep, CallerPc.Live], by simp, by simp, by simp [Sys.setReactor, hsleep]⟩
    (by simp [Sys.setReactor, hsleep, CallerPc.refs]) (by simp [CallerPc.dispatches])
  exact this.mono fun _ h => h.elim id id

/-- One step of an I/O callback. -/
theorem runIo_follows (ht : Tracks s κ) (hc : Consistent e κ) {f : IoFrame} {rest : List Frame}
    (hst : (s.reactor w).stack = .io f :: rest) {c : Choice} {s1 : Sys} {fs : List IoFrame}
    (h : runIo e (s.setReactor w { s.reactor w with stack := rest }) w f c = some (s1, fs)) :
    Follows e (s1.setReactor w { s1.reactor w with stack := fs.map .io ++ rest }) κ noMarks := by
  have htidy := ht.tidy.reactor w
  have hpopped : ((s.setReactor w { s.reactor w with stack := rest }).reactor w) =
      { s.reactor w with stack := rest } := by simp [Sys.setReactor]
  have hlocal := htidy.frames (.io f) (hst ▸ List.mem_cons_self)
  unfold runIo at h
  split at h
  · -- the end of a dispatch
    simp only [Option.some.injEq, Prod.mk.injEq] at h
    obtain ⟨rfl, rfl⟩ := h
    exact frame_quiet ht hst { s.reactor w with stack := rest } [] rfl rfl rfl (by simp) (.refl _)
      (by simp [Sys.setReactor]) rfl rfl rfl rfl
  · -- its next request
    rename_i r rs
    simp only [Option.some.injEq, Prod.mk.injEq] at h
    obtain ⟨rfl, rfl⟩ := h
    refine frame_quiet ht hst { s.reactor w with stack := rest }
      [.io (.executeIo r), .io (.executeWorkerBatch rs)] rfl rfl rfl (by simp [Frame.Local]) ?_
      (by simp [Sys.setReactor]) rfl rfl rfl rfl
    have hpush := entries_push (x := s.reactor w) [.io (.executeIo r), .io (.executeWorkerBatch rs)] rest
    simpa [Frame.entries, IoFrame.entries] using hpush
  · exact executeIo_follows ht hc hst (Option.some.inj h)
  · -- `spdk_bdev_free_io` runs an `io_wait` callback
    rename_i r success k
    simp only [hpopped] at h
    split at h
    · cases h
    · rename_i r' hk
      split at h
      · simp only [Option.some.injEq, Prod.mk.injEq] at h
        obtain ⟨rfl, rfl⟩ := h
        obtain ⟨hlt, hget⟩ := List.getElem?_eq_some_iff.1 hk
        have hperm := (List.getElem_cons_eraseIdx_perm hlt).map fun r => ((r, .queued) : Ref × Stage)
        rw [hget] at hperm
        refine frame_quiet ht hst { s.reactor w with stack := rest, ioWait := (s.reactor w).ioWait.eraseIdx k }
          [.io (.executeIo r'), .io (.freeIo r success)] rfl rfl rfl (by simp [Frame.Local]) ?_
          (update_popped _ _ _ _) rfl rfl rfl rfl
        rw [List.perm_iff_count] at hperm ⊢
        intro y
        have := hperm y
        simp only [count_entries, List.flatMap_append, List.count_append, List.flatMap_cons, List.flatMap_nil,
          List.append_nil, Frame.entries, IoFrame.entries, List.map_cons, List.count_cons, List.count_nil] at this ⊢
        omega
      · cases h
  · -- or returns
    rename_i r success
    simp only [Option.some.injEq, Prod.mk.injEq] at h
    obtain ⟨rfl, rfl⟩ := h
    exact frame_quiet ht hst { s.reactor w with stack := rest } [.io (.completeIo r success)] rfl rfl rfl
      (by simp [Frame.Local]) (entries_push (x := s.reactor w) [.io (.completeIo r success)] rest)
      (by simp [Sys.setReactor]) rfl rfl rfl rfl
  · exact completeIo_follows ht hc hst (Option.some.inj h)
  · -- the critical section of `complete_request`
    rename_i r success error
    simp only [Option.some.injEq, Prod.mk.injEq] at h
    obtain ⟨rfl, rfl⟩ := h
    exact completeRequest_follows ht hc hst rfl
  · -- its `notify_one`
    rename_i b
    split at h
    · rename_i hsleep
      simp only [Option.some.injEq, Prod.mk.injEq] at h
      obtain ⟨rfl, rfl⟩ := h
      have := notifyOne_follows (e := e) ht hst hsleep
      simpa [Sys.setReactor, Sys.setBatch] using this
    · simp only [Option.some.injEq, Prod.mk.injEq] at h
      obtain ⟨rfl, rfl⟩ := h
      exact frame_quiet ht hst { s.reactor w with stack := rest } [] rfl rfl rfl (by simp) (.refl _)
        (by simp [Sys.setReactor]) rfl rfl rfl rfl
  · -- `drain_pending_io`
    rename_i v
    have hv : v = w := hlocal
    subst hv
    rw [hpopped] at h
    dsimp only at h
    split at h
    · simp only [Option.some.injEq, Prod.mk.injEq] at h
      obtain ⟨rfl, rfl⟩ := h
      exact frame_quiet ht hst { s.reactor v with stack := rest } [] rfl rfl rfl (by simp) (.refl _)
        (by simp [Sys.setReactor]) rfl rfl rfl rfl
    · simp only [Option.some.injEq, Prod.mk.injEq] at h
      obtain ⟨rfl, rfl⟩ := h
      exact frame_quiet ht hst { s.reactor v with stack := rest, drainingPendingIo := true } [.io (.drainLoop v)]
        rfl rfl rfl (by simp [Frame.Local]) (.refl _) (update_popped _ _ _ _) rfl rfl rfl rfl
  · -- its loop
    rename_i v
    have hv : v = w := hlocal
    subst hv
    rw [hpopped] at h
    dsimp only at h
    split at h
    · rename_i r tail hpending
      split at h
      · simp only [Option.some.injEq, Prod.mk.injEq] at h
        obtain ⟨rfl, rfl⟩ := h
        refine frame_quiet ht hst { s.reactor v with stack := rest, pendingIo := tail }
          [.io (.executeIo r), .io (.drainLoop v)] rfl rfl rfl (by simp [Frame.Local]) ?_
          (update_popped _ _ _ _) rfl rfl rfl rfl
        rw [List.perm_iff_count]
        intro y
        simp only [count_entries, hpending, List.flatMap_append, List.count_append, List.flatMap_cons,
          List.flatMap_nil, List.append_nil, Frame.entries, IoFrame.entries, List.map_cons, List.count_cons,
          List.count_nil]
        omega
      · simp only [Option.some.injEq, Prod.mk.injEq] at h
        obtain ⟨rfl, rfl⟩ := h
        exact frame_quiet ht hst { s.reactor v with stack := rest, drainingPendingIo := false } [] rfl rfl rfl
          (by simp) (.refl _) (update_popped _ _ _ _) rfl rfl rfl rfl
    · simp only [Option.some.injEq, Prod.mk.injEq] at h
      obtain ⟨rfl, rfl⟩ := h
      exact frame_quiet ht hst { s.reactor v with stack := rest, drainingPendingIo := false } [] rfl rfl rfl
        (by simp) (.refl _) (update_popped _ _ _ _) rfl rfl rfl rfl
  · cases h

end SpdkBdevContext
end SpdkConnector
