import SpdkConnector.Context.IoSteps

/-!
# The life cycle callbacks leave the requests alone

Construction and teardown do nothing to a request but flush the starved ones; what else they do to the
requests' world is to fill and to release pools. One lemma for each shape of step, and `runLife_follows`.
-/

namespace SpdkConnector
namespace SpdkBdevContext

open Interleaving

variable {e : Env} {s s' : Sys} {κ : Core} {w : Nat} {x y z : Reactor}

/-! ## The life cycle callbacks -/

def Frame.IsLife : Frame → Prop
  | .life _ => True
  | .io _ => False

theorem Frame.IsLife.quiet {f : Frame} (h : f.IsLife) : f.entries = [] ∧ f.Local w := by
  cases f with
  | life => exact ⟨rfl, trivial⟩
  | io => exact h.elim

/-- A reactor whose requests, pool and buffers are as before. -/
structure Unmoved (w : Nat) (x y : Reactor) : Prop where
  pool : y.pool = x.pool
  dma : y.dma = x.dma
  entries : y.entries.Perm x.entries
  frames : (∀ f ∈ x.stack, f.Local w) → ∀ f ∈ y.stack, f.Local w
  posted : ∀ d, .executeWorkerBatch d ∈ y.queue → .executeWorkerBatch d ∈ x.queue

theorem Unmoved.refl (w : Nat) (x : Reactor) : Unmoved w x x := ⟨rfl, rfl, .refl _, id, fun _ => id⟩

theorem Unmoved.trans (h : Unmoved w x y) (h' : Unmoved w y z) : Unmoved w x z :=
  ⟨h'.pool.trans h.pool, h'.dma.trans h.dma, h'.entries.trans h.entries, fun hf => h'.frames (h.frames hf),
    fun d hd => h.posted d (h'.posted d hd)⟩

theorem unmoved_frames {f : Frame} {rest : List Frame} (hst : x.stack = f :: rest) (hf : f.IsLife)
    (fs : List Frame) (hfs : ∀ g ∈ fs, g.IsLife) : Unmoved w x { x with stack := fs ++ rest } := by
  refine ⟨rfl, rfl, ?_, fun hl g hg => ?_, fun d hd => hd⟩
  · have hnone : fs.flatMap Frame.entries = [] := List.flatMap_eq_nil_iff.2 fun g hg => ((hfs g hg).quiet (w := w)).1
    have hpush := entries_push (x := x) fs rest
    have hpop := entries_pop hst
    rw [hnone] at hpush
    rw [(hf.quiet (w := w)).1] at hpop
    exact hpush.trans hpop.symm
  · rcases List.mem_append.1 hg with hg | hg
    · exact (hfs g hg).quiet.2
    · exact hl g (hst ▸ List.mem_cons_of_mem _ hg)

theorem unmoved_post {m : Msg} (hm : m.frame.IsLife) : Unmoved w x { x with queue := x.queue ++ [m] } := by
  refine ⟨rfl, rfl, ?_, id, fun d hd => ?_⟩
  · simp [Reactor.entries, Msg.entries, (hm.quiet (w := w)).1]
  · rcases List.mem_append.1 hd with hd | hd
    · exact hd
    · rw [List.mem_singleton] at hd
      subst hd
      exact hm.elim

theorem Unmoved.tidy (h : Unmoved w x y) (hx : TidyReactor w x) : TidyReactor w y :=
  ⟨h.pool ▸ hx.pool, h.pool ▸ hx.buffers, h.frames hx.frames, fun d hd => hx.posted d (h.posted d hd)⟩

/-- No reactor moves a request. -/
theorem follows_unmoved (ht : Tracks s κ) (hx : ∀ v, Unmoved v (s.reactor v) (s'.reactor v))
    (hreq : s'.request = s.request) (hbatch : s'.batch = s.batch) (hdev : s'.device = s.device)
    (hbatches : s'.batches = s.batches) : Follows e s' κ noMarks := by
  refine ⟨κ, .refl, ⟨hreq ▸ ht.request, hbatch ▸ ht.batch, ?_, ?_, hdev ▸ ht.device, ?_,
    ⟨fun v => (hx v).tidy (ht.tidy.reactor v), ?_, ?_⟩⟩, fun _ => .inl⟩
  · funext v
    rw [(hx v).pool, ht.pool]
  · funext v
    rw [(hx v).dma, ht.dma]
  · rw [hreq]
    refine ht.ledger.shuffle fun p => ?_
    cases p with
    | worker v => exact (hx v).entries
    | caller b => simp [shown, hbatch]
  · rw [hbatch, hreq]
    exact ht.tidy.dispatches
  · rw [hbatch, hbatches]
    exact ht.tidy.fresh

/-- A life cycle frame that leaves the requests and the pools alone, and may post a life cycle message. -/
theorem life_quiet (ht : Tracks s κ) {f : LifeFrame} {rest : List Frame}
    (hst : (s.reactor w).stack = .life f :: rest) {fs : List Frame} (hfs : ∀ g ∈ fs, g.IsLife) {s1 : Sys}
    (hx : ∀ v, Unmoved v ((s.setReactor w { s.reactor w with stack := rest }).reactor v) (s1.reactor v))
    (hstack : (s1.reactor w).stack = rest)
    (hreq : s1.request = s.request) (hbatch : s1.batch = s.batch) (hdev : s1.device = s.device)
    (hbatches : s1.batches = s.batches) :
    Follows e (s1.setReactor w { s1.reactor w with stack := fs ++ rest }) κ noMarks := by
  refine follows_unmoved ht (fun v => ?_) hreq hbatch hdev hbatches
  by_cases hv : v = w
  · subst hv
    have hpop : Unmoved v (s.reactor v) (s1.reactor v) := by
      have h := hx v
      simp only [Sys.setReactor, Function.update_self] at h
      exact (unmoved_frames hst trivial [] (by simp)).trans h
    have hpush : Unmoved v (s1.reactor v) { s1.reactor v with stack := fs ++ rest } := by
      have hentries : ∀ g ∈ fs, g.entries = [] := fun g hg => ((hfs g hg).quiet (w := v)).1
      refine ⟨rfl, rfl, ?_, fun hl g hg => ?_, fun d hd => hd⟩
      · have h := entries_push (x := s1.reactor v) fs rest
        rw [List.flatMap_eq_nil_iff.2 hentries, ← hstack] at h
        rw [← hstack]
        exact h
      · rcases List.mem_append.1 hg with hg | hg
        · exact (hfs g hg).quiet.2
        · exact hl g (hstack ▸ hg)
    simpa [Sys.setReactor] using hpop.trans hpush
  · have h := hx v
    simp only [Sys.setReactor, ne_eq, hv, not_false_eq_true, Function.update_of_ne] at h ⊢
    exact h

/-- Nothing on any reactor but the popped frame changed. -/
theorem unmoved_same {s0 s1 : Sys} (h : s1.reactor = s0.reactor) (v : Nat) :
    Unmoved v (s0.reactor v) (s1.reactor v) := by
  rw [h]
  exact .refl _ _

theorem unmoved_posted {s0 s1 : Sys} {u : Nat} {m : Msg} (hm : m.frame.IsLife)
    (h : s1.reactor = (s0.post u m).reactor) (v : Nat) : Unmoved v (s0.reactor v) (s1.reactor v) := by
  rw [h]
  by_cases hv : v = u
  · subst hv
    simpa [Sys.post, Sys.setReactor] using unmoved_post (w := v) (x := s0.reactor v) hm
  · simp only [Sys.post, Sys.setReactor, ne_eq, hv, not_false_eq_true, Function.update_of_ne]
    exact .refl _ _

/-- The frame that runs is taken off. -/
theorem follows_pop (ht : Tracks s κ) {f : Frame} {rest : List Frame} (hst : (s.reactor w).stack = f :: rest)
    (hf : f.IsLife) : Follows e (s.setReactor w { s.reactor w with stack := rest }) κ noMarks := by
  refine follows_unmoved ht (fun v => ?_) rfl rfl rfl rfl
  by_cases hv : v = w
  · subst hv
    simpa [Sys.setReactor] using unmoved_frames (w := v) hst hf [] (by simp)
  · simp only [Sys.setReactor, ne_eq, hv, not_false_eq_true, Function.update_of_ne]
    exact .refl _ _

/-- The calls it makes are put on. -/
theorem follows_push (ht : Tracks s κ) {rest fs : List Frame} (hst : (s.reactor w).stack = rest)
    (hfs : ∀ g ∈ fs, g.IsLife) : Follows e (s.setReactor w { s.reactor w with stack := fs ++ rest }) κ noMarks := by
  refine follows_unmoved ht (fun v => ?_) rfl rfl rfl rfl
  by_cases hv : v = w
  · subst hv
    have hnone : fs.flatMap Frame.entries = [] := List.flatMap_eq_nil_iff.2 fun g hg => ((hfs g hg).quiet (w := v)).1
    have hpush := entries_push (x := s.reactor v) fs rest
    rw [hnone, ← hst] at hpush
    simp only [Sys.setReactor, Function.update_self]
    refine ⟨rfl, rfl, hst ▸ hpush, fun hl g hg => ?_, fun d hd => hd⟩
    rcases List.mem_append.1 hg with hg | hg
    · exact (hfs g hg).quiet.2
    · exact hl g (hst ▸ hg)
  · simp only [Sys.setReactor, ne_eq, hv, not_false_eq_true, Function.update_of_ne]
    exact .refl _ _

/-- A reactor that differs in its pool and its buffers only. -/
structure Repooled (x y : Reactor) : Prop where
  entries : y.entries.Perm x.entries
  stack : y.stack = x.stack
  queue : y.queue = x.queue
  pool : y.pool.WF
  buffers : y.pool.buffers.Nodup

theorem Repooled.tidy (h : Repooled x y) (hx : TidyReactor w x) : TidyReactor w y :=
  ⟨h.pool, h.buffers, h.stack ▸ hx.frames, h.queue ▸ hx.posted⟩

/-- A pool is released. -/
theorem follows_release (ht : Tracks s κ) (h : OneReactor s s' w y) (hreq : s'.request = s.request)
    (hbatch : s'.batch = s.batch) (hdev : s'.device = s.device) (hy : Repooled (s.reactor w) y) (hpool : y.pool = {})
    (hdma : y.dma = (s.reactor w).dma) : Follows e s' κ fun m => m = .released := by
  refine ⟨_, .single (.releasePool w), h.tracks ht ?_ ?_ ?_ ?_ ?_ (h.shuffle ht.ledger hy.entries)
    (hy.tidy (ht.tidy.reactor w)), fun m hm => hm.imp id And.left⟩
  · exact ht.request.trans hreq.symm
  · exact ht.batch.trans hbatch.symm
  · exact ht.device.trans hdev.symm
  · simp [hpool]
  · simp [hdma, ht.dma]

/-- A pool is filled. -/
theorem follows_fill (ht : Tracks s κ) (h : OneReactor s s' w y) (hreq : s'.request = s.request)
    (hbatch : s'.batch = s.batch) (hdev : s'.device = s.device) (hy : Repooled (s.reactor w) y)
    (hini : (s.reactor w).pool.initialized = false) {size alignment : Nat} {buffers : List Nat}
    (hpool : y.pool = SpdkBufferPool.filled size alignment buffers) (hdma : y.dma = fun _ _ => 0) :
    Follows e s' κ noMarks := by
  refine ⟨_, .single (.fillPool w size alignment buffers (by rw [ht.pool]; exact hini)
      (by simpa [hpool, SpdkBufferPool.filled] using hy.buffers)),
    h.tracks ht ?_ ?_ ?_ ?_ ?_ (h.shuffle ht.ledger hy.entries) (hy.tidy (ht.tidy.reactor w)), fun m hm => .inl hm⟩
  · exact ht.request.trans hreq.symm
  · exact ht.batch.trans hbatch.symm
  · exact ht.device.trans hdev.symm
  · simp [hpool]
  · simp [hdma]

/-- `initialize_io_worker` leaves a worker's requests alone, and its pool unless it fills it. -/
theorem initializeIoWorker_spec (hwf : (s.reactor w).pool.WF) (onReactor channel : Bool) (obtained : Nat) :
    ∃ y, (initializeIoWorker e s w onReactor channel obtained).1.reactor = Function.update s.reactor w y ∧
      (initializeIoWorker e s w onReactor channel obtained).1.ctx = s.ctx ∧
      (initializeIoWorker e s w onReactor channel obtained).1.request = s.request ∧
      (initializeIoWorker e s w onReactor channel obtained).1.batch = s.batch ∧
      (initializeIoWorker e s w onReactor channel obtained).1.device = s.device ∧
      (initializeIoWorker e s w onReactor channel obtained).1.batches = s.batches ∧
      y.entries = (s.reactor w).entries ∧ y.stack = (s.reactor w).stack ∧ y.queue = (s.reactor w).queue ∧
      ((y.pool = (s.reactor w).pool ∧ y.dma = (s.reactor w).dma) ∨
        ((s.reactor w).pool.initialized = false ∧ ∃ n, 0 < n ∧ y.dma = (fun _ _ => 0) ∧
          y.pool = SpdkBufferPool.filled e.geometry.ioSegmentSize e.geometry.bufferAlignment (List.range n))) := by
  unfold initializeIoWorker
  dsimp only
  split
  · exact ⟨_, (Function.update_eq_self _ _).symm, rfl, rfl, rfl, rfl, rfl, rfl, rfl, rfl, .inl ⟨rfl, rfl⟩⟩
  split
  · exact ⟨_, (Function.update_eq_self _ _).symm, rfl, rfl, rfl, rfl, rfl, rfl, rfl, rfl, .inl ⟨rfl, rfl⟩⟩
  obtain ⟨x, hx⟩ | ⟨buffers, hini, hcount, halloc, hx⟩ := SpdkBufferPool.initializePool_cases hwf e.geometry.ioSegmentSize
    e.geometry.bufferAlignment e.geometry.spdkBufferCount (fun i => if i < obtained then some i else none)
  · rw [hx]
    exact ⟨_, rfl, rfl, rfl, rfl, rfl, rfl, rfl, rfl, rfl, .inl ⟨rfl, rfl⟩⟩
  · have hbuffers : buffers = List.range (0 + e.geometry.spdkBufferCount) := by
      refine SpdkBufferPool.allocateBuffers_range ?_ halloc
      intro i b hb
      split at hb
      · exact (Option.some.inj hb).symm
      · cases hb
    rw [hx]
    exact ⟨_, rfl, rfl, rfl, rfl, rfl, rfl, rfl, rfl, rfl,
      .inr ⟨hini, 0 + e.geometry.spdkBufferCount, by omega, rfl, by rw [hbuffers]⟩⟩

/-- `release_all` on a worker, and its accounting. -/
theorem releasePool_spec (s : Sys) (i : Nat) :
    (releasePool s i).reactor = Function.update s.reactor i
      { s.reactor i with pool := {}, dmaPoolAllocatedBytes := 0 } ∧
    (releasePool s i).ctx = s.ctx ∧ (releasePool s i).owner = s.owner ∧
    (releasePool s i).runtimeAvailable = s.runtimeAvailable ∧ (releasePool s i).request = s.request ∧
    (releasePool s i).batch = s.batch ∧ (releasePool s i).device = s.device ∧
    (releasePool s i).batches = s.batches := by
  unfold releasePool releaseAccounting
  dsimp only
  split
  · refine ⟨?_, rfl, rfl, rfl, rfl, rfl, rfl, rfl⟩
    simp [Sys.setReactor, SpdkBufferPool.releaseAll]
  · rename_i h
    refine ⟨?_, rfl, rfl, rfl, rfl, rfl, rfl, rfl⟩
    have h0 : (s.reactor i).dmaPoolAllocatedBytes = 0 := by simpa [Sys.setReactor] using h
    simp [Sys.setReactor, SpdkBufferPool.releaseAll, ← h0]

/-- `shutdown_io_worker` past its loop, as the worker's reactor sees it. -/
theorem releaseIoWorker_reactor (s : Sys) (w : Nat) :
    ((releasePool s w).setReactor w { (releasePool s w).reactor w with
      channelHeld := if ((releasePool s w).reactor w).ioChannel then false
        else ((releasePool s w).reactor w).channelHeld
      ioChannel := false
      shutDown := true }).reactor =
    Function.update s.reactor w { s.reactor w with
      pool := {}, dmaPoolAllocatedBytes := 0
      channelHeld := if (s.reactor w).ioChannel then false else (s.reactor w).channelHeld
      ioChannel := false, shutDown := true } := by
  simp [Sys.setReactor, (releasePool_spec s w).1]

/-- The resources of a worker that could not be told to shut down. -/
theorem postShutdown_reactor (s : Sys) (i : Nat) :
    ((releasePool s i).setReactor i { (releasePool s i).reactor i with ioChannel := false }).reactor =
    Function.update s.reactor i { s.reactor i with pool := {}, dmaPoolAllocatedBytes := 0, ioChannel := false } := by
  simp [Sys.setReactor, (releasePool_spec s i).1]

/-- The callbacks that release a pool. -/
def LifeFrame.Releases : LifeFrame → Prop
  | .postShutdown _ | .releaseIoWorker => True
  | _ => False

/-- The marks a life cycle step may add. -/
def LifeFrame.marks (f : LifeFrame) : Mark → Prop := fun m => m = .released ∧ f.Releases

theorem Follows.weaken (h : Follows e s' κ noMarks) (ms : Mark → Prop) : Follows e s' κ ms :=
  h.mono fun _ hm => hm.elim

/-- A worker's pool is released in a frame of worker `w`, which then makes its calls. -/
theorem life_release (ht : Tracks s κ) {f : LifeFrame} {rest : List Frame}
    (hst : (s.reactor w).stack = .life f :: rest) (hf : f.Releases) {fs : List Frame} (hfs : ∀ g ∈ fs, g.IsLife)
    {i : Nat} {s1 : Sys} {y : Reactor}
    (hreactor : s1.reactor = Function.update (s.setReactor w { s.reactor w with stack := rest }).reactor i y)
    (hy : Repooled ((s.setReactor w { s.reactor w with stack := rest }).reactor i) y) (hpool : y.pool = {})
    (hdma : y.dma = ((s.setReactor w { s.reactor w with stack := rest }).reactor i).dma)
    (hreq : s1.request = s.request) (hbatch : s1.batch = s.batch) (hdev : s1.device = s.device)
    (hbatches : s1.batches = s.batches) :
    Follows e (s1.setReactor w { s1.reactor w with stack := fs ++ rest }) κ f.marks := by
  have hpop := follows_pop (e := e) ht hst trivial
  have hone : OneReactor (s.setReactor w { s.reactor w with stack := rest }) s1 i y :=
    ⟨hreactor, fun b => by rw [hbatch]; rfl, fun r => by rw [hreq]; rfl, hbatches⟩
  have hstack : (s1.reactor w).stack = rest := by
    rw [hreactor]
    by_cases hw : w = i
    · subst hw
      rw [Function.update_self, hy.stack]
      simp [Sys.setReactor]
    · rw [Function.update_of_ne hw]
      simp [Sys.setReactor]
  have hrelease := hpop.trans fun κ1 _ ht1 => follows_release ht1 hone hreq hbatch hdev hy hpool hdma
  have hpush := hrelease.trans fun κ2 _ ht2 => follows_push ht2 hstack hfs
  refine hpush.mono fun m hm => ?_
  rcases hm with (hm | hm) | hm
  · exact hm.elim
  · exact ⟨hm, hf⟩
  · exact hm.elim

/-- `initialize_io_worker`. -/
theorem life_setUp (ht : Tracks s κ) {rest : List Frame} (hst : (s.reactor w).stack = .life .initializeIoWorker :: rest)
    (onReactor channel : Bool) (obtained : Nat) {s1 : Sys} {error : String}
    (h : initializeIoWorker e (s.setReactor w { s.reactor w with stack := rest }) w onReactor channel obtained =
      (s1, error)) :
    Follows e (s1.setReactor w { s1.reactor w with stack := [.life (.onIoWorkerInitialized error)] ++ rest }) κ noMarks := by
  have htidy := ht.tidy.reactor w
  obtain ⟨y, hreactor, -, hreq, hbatch, hdev, hbatches, hentries, hystack, hyqueue, hcase⟩ :=
    initializeIoWorker_spec (e := e) (s := s.setReactor w { s.reactor w with stack := rest }) (w := w)
      (by simpa [Sys.setReactor] using htidy.pool) onReactor channel obtained
  rw [h] at hreactor hreq hbatch hdev hbatches
  dsimp only at hreactor hreq hbatch hdev hbatches
  have hone : OneReactor (s.setReactor w { s.reactor w with stack := rest }) s1 w y :=
    ⟨hreactor, fun b => by rw [hbatch], fun r => by rw [hreq], hbatches⟩
  have hstack : (s1.reactor w).stack = rest := by
    rw [hreactor, Function.update_self, hystack]
    simp [Sys.setReactor]
  have hfs : ∀ g ∈ [Frame.life (.onIoWorkerInitialized error)], g.IsLife := by simp [Frame.IsLife]
  have hpop := follows_pop (e := e) ht hst trivial
  have hfill : Follows e s1 κ fun m => noMarks m ∨ noMarks m := by
    refine hpop.trans fun κ1 _ ht1 => ?_
    have htidy1 := ht1.tidy.reactor w
    rcases hcase with ⟨hpool, hdma⟩ | ⟨hini, n, -, hdma, hpool⟩
    · refine follows_quiet ht1 hone hreq hbatch hdev hpool hdma (hentries ▸ .refl _)
        ⟨hpool ▸ htidy1.pool, hpool ▸ htidy1.buffers, hystack ▸ htidy1.frames, hyqueue ▸ htidy1.posted⟩
    · refine follows_fill ht1 hone hreq hbatch hdev ⟨hentries ▸ .refl _, hystack, hyqueue, ?_, ?_⟩ hini hpool hdma
      · exact hpool ▸ SpdkBufferPool.filled_wf
      · rw [hpool]
        exact List.nodup_range
  have hpush := hfill.trans fun κ2 _ ht2 => follows_push ht2 hstack hfs
  refine hpush.mono fun m hm => ?_
  rcases hm with (hm | hm) | hm
  · exact hm
  · exact hm
  · exact hm

/-- The flush of `shutdown_io_worker` takes one request. -/
theorem life_flush (ht : Tracks s κ) {rest : List Frame} {r : Ref} {tail : List Ref}
    (hst : (s.reactor w).stack = .life .shutdownIoWorker :: rest) (hpending : (s.reactor w).pendingIo = r :: tail)
    (error : String) :
    Follows e (s.setReactor w { s.reactor w with
      pendingIo := tail, stack := [.io (.completeRequest r false error), .life .shutdownIoWorker] ++ rest }) κ noMarks := by
  have htidy := ht.tidy.reactor w
  have hmem : (r, Stage.queued) ∈ (s.reactor w).entries := entries_pending (by rw [hpending]; exact List.mem_cons_self)
  obtain ⟨hstage, hworker⟩ := ht.entry hmem
  let y := { s.reactor w with
    pendingIo := tail, stack := [Frame.io (.completeRequest r false error), .life .shutdownIoWorker] ++ rest }
  have hone : OneReactor s (s.setReactor w y) w y := setReactor_one s w y
  have hold : (s.reactor w).entries.Perm ((r, .queued) :: { s.reactor w with pendingIo := tail, stack := rest }.entries) := by
    rw [List.perm_iff_count]
    intro z
    simp only [count_entries, hst, hpending, List.count_cons, List.flatMap_cons, List.map_cons, List.count_append,
      Frame.entries, List.count_nil]
    omega
  have hnew : y.entries.Perm ((r, .closing false) :: { s.reactor w with pendingIo := tail, stack := rest }.entries) := by
    rw [List.perm_iff_count]
    intro z
    simp only [y, count_entries, List.count_cons, List.flatMap_cons, List.flatMap_append, List.count_append,
      Frame.entries, IoFrame.entries, List.count_nil, List.flatMap_nil]
    omega
  refine ⟨_, .single (.abandon r (.inl hstage)), hone.tracks ht ht.request ht.batch ht.device ?_ ?_
    (hone.turn ht.ledger hold hnew rfl) ⟨htidy.pool, htidy.buffers, ?_, htidy.posted⟩, fun m hm => .inl hm⟩
  · simp [y, ht.pool]
  · simp [y, ht.dma]
  · intro f hf
    simp only [y, List.cons_append, List.nil_append, List.mem_cons] at hf
    rcases hf with rfl | rfl | hf
    · trivial
    · trivial
    · exact htidy.frames f (hst ▸ List.mem_cons_of_mem _ hf)

/-- A frame that changes only the context's members. -/
theorem life_members (ht : Tracks s κ) {f : LifeFrame} {rest : List Frame}
    (hst : (s.reactor w).stack = .life f :: rest) (fs : List LifeFrame) {s1 : Sys}
    (hreactor : s1.reactor = (s.setReactor w { s.reactor w with stack := rest }).reactor)
    (hreq : s1.request = s.request) (hbatch : s1.batch = s.batch) (hdev : s1.device = s.device)
    (hbatches : s1.batches = s.batches) :
    Follows e (s1.setReactor w { s1.reactor w with stack := fs.map .life ++ rest }) κ f.marks := by
  refine (life_quiet ht hst ?_ (unmoved_same hreactor) ?_ hreq hbatch hdev hbatches).weaken _
  · intro g hg
    obtain ⟨f', -, rfl⟩ := List.mem_map.1 hg
    trivial
  · rw [hreactor]
    simp [Sys.setReactor]

/-- A frame that posts a life cycle message. -/
theorem life_post (ht : Tracks s κ) {f : LifeFrame} {rest : List Frame}
    (hst : (s.reactor w).stack = .life f :: rest) (fs : List LifeFrame) {m : Msg} (hm : m.frame.IsLife) (i : Nat)
    {s1 : Sys} (hs1 : s1 = (s.setReactor w { s.reactor w with stack := rest }).post i m) :
    Follows e (s1.setReactor w { s1.reactor w with stack := fs.map .life ++ rest }) κ f.marks := by
  subst hs1
  refine (life_quiet ht hst ?_ (unmoved_posted hm rfl) ?_ rfl rfl rfl rfl).weaken _
  · intro g hg
    obtain ⟨f', -, rfl⟩ := List.mem_map.1 hg
    trivial
  · by_cases hi : w = i
    · subst hi
      simp [Sys.post, Sys.setReactor]
    · simp [Sys.post, Sys.setReactor, hi]

/-- The critical section of `request_shutdown`: texts and codes aside, it sets `shutdown_requested_` when it
starts the teardown. -/
theorem requestShutdown_eq (s : Sys) (rc : Int) (error : String) : ∃ lastError shutdownReturnCode start,
    start = (!s.ctx.shutdownRequested && s.ctx.runtime && s.runtimeAvailable) ∧
    requestShutdown s rc error = ({ s with ctx := { s.ctx with
      lastError, shutdownReturnCode, shutdownRequested := s.ctx.shutdownRequested || start } }, start) := by
  have hmembers : ∀ c : Members, c.shutdownRequested = s.ctx.shutdownRequested → c.runtime = s.ctx.runtime →
      (if (!c.shutdownRequested && c.runtime && s.runtimeAvailable) = true then
        (({ s with ctx := { c with shutdownRequested := true } } : Sys), true) else ({ s with ctx := c }, false)) =
      ({ s with ctx := { c with shutdownRequested := c.shutdownRequested ||
          (!s.ctx.shutdownRequested && s.ctx.runtime && s.runtimeAvailable) } },
        !s.ctx.shutdownRequested && s.ctx.runtime && s.runtimeAvailable) := by
    intro c h1 h2
    rw [← h1, ← h2]
    cases !c.shutdownRequested && c.runtime && s.runtimeAvailable with
    | true => simp only [if_true, Bool.or_true]
    | false => simp only [Bool.false_eq_true, if_false, Bool.or_false]
  unfold requestShutdown
  dsimp only
  by_cases herror : error = ""
  · rw [if_neg (not_not.2 herror)]
    by_cases hcode : rc ≠ 0 ∧ s.ctx.shutdownReturnCode = 0
    · rw [if_pos hcode]
      exact ⟨_, _, _, rfl, hmembers { s.ctx with shutdownReturnCode := rc } rfl rfl⟩
    · rw [if_neg hcode]
      exact ⟨_, _, _, rfl, hmembers s.ctx rfl rfl⟩
  · rw [if_pos herror]
    by_cases hcode : rc ≠ 0 ∧ s.ctx.shutdownReturnCode = 0
    · rw [if_pos hcode]
      exact ⟨_, _, _, rfl, hmembers { s.ctx with lastError := error, shutdownReturnCode := rc } rfl rfl⟩
    · rw [if_neg hcode]
      exact ⟨_, _, _, rfl, hmembers { s.ctx with lastError := error } rfl rfl⟩

theorem requestShutdown_same (s : Sys) (rc : Int) (error : String) :
    (requestShutdown s rc error).1.reactor = s.reactor ∧ (requestShutdown s rc error).1.request = s.request ∧
    (requestShutdown s rc error).1.batch = s.batch ∧ (requestShutdown s rc error).1.device = s.device ∧
    (requestShutdown s rc error).1.batches = s.batches := by
  obtain ⟨lastError, code, start, -, h⟩ := requestShutdown_eq s rc error
  rw [h]
  exact ⟨rfl, rfl, rfl, rfl, rfl⟩

/-- The critical section of `on_io_worker_initialized`. -/
theorem onIoWorkerInitialized_eq (s : Sys) (error : String) : ∃ lastError,
    onIoWorkerInitialized s error =
      if s.ctx.workersInitializing - 1 = 0 then
        ({ s with ctx := { s.ctx with
            lastError, workersInitializing := s.ctx.workersInitializing - 1
            initializationSucceeded := lastError == "", initializationComplete := true } },
          .notifyAll :: if lastError == "" then [] else [.requestShutdown einval ""])
      else ({ s with ctx := { s.ctx with lastError, workersInitializing := s.ctx.workersInitializing - 1 } }, []) := by
  unfold onIoWorkerInitialized
  dsimp only
  by_cases herror : error ≠ "" ∧ s.ctx.lastError = ""
  · rw [if_pos herror]
    exact ⟨error, rfl⟩
  · rw [if_neg herror]
    exact ⟨s.ctx.lastError, rfl⟩

theorem onIoWorkerInitialized_same (s : Sys) (error : String) :
    (onIoWorkerInitialized s error).1.reactor = s.reactor ∧ (onIoWorkerInitialized s error).1.request = s.request ∧
    (onIoWorkerInitialized s error).1.batch = s.batch ∧ (onIoWorkerInitialized s error).1.device = s.device ∧
    (onIoWorkerInitialized s error).1.batches = s.batches := by
  obtain ⟨lastError, h⟩ := onIoWorkerInitialized_eq s error
  rw [h]
  split <;> exact ⟨rfl, rfl, rfl, rfl, rfl⟩

/-- One step of a life cycle callback. -/
theorem runLife_follows (ht : Tracks s κ) {f : LifeFrame} {rest : List Frame}
    (hst : (s.reactor w).stack = .life f :: rest) {c : Choice} {s1 : Sys} {fs : List Frame}
    (h : runLife e (s.setReactor w { s.reactor w with stack := rest }) w f c = some (s1, fs)) :
    Follows e (s1.setReactor w { s1.reactor w with stack := fs ++ rest }) κ f.marks := by
  have hpopped : ((s.setReactor w { s.reactor w with stack := rest }).reactor w) =
      { s.reactor w with stack := rest } := by simp [Sys.setReactor]
  unfold runLife at h
  split at h
  · -- the open
    split at h
    · cases h
      exact life_members ht hst [_, _] rfl rfl rfl rfl rfl
    · cases h
      exact life_members ht hst [_] rfl rfl rfl rfl rfl
  · split at h
    · cases h
      exact life_members ht hst [_, _] rfl rfl rfl rfl rfl
    · cases h
  · cases h
    exact life_members ht hst [_] rfl rfl rfl rfl rfl
  · -- an initialisation is posted
    rename_i i rc
    split at h
    · split at h
      · cases h
        exact life_post ht hst [_] (m := .initializeIoWorker) trivial i rfl
      · cases h
        exact life_members ht hst [_, _] rfl rfl rfl rfl rfl
    · cases h
  · split at h
    · cases h
    · cases h
      exact life_members ht hst [_] rfl rfl rfl rfl rfl
  · -- a worker sets itself up
    rename_i onReactor channel obtained
    cases h
    exact (life_setUp ht hst onReactor channel obtained rfl).weaken _
  · rename_i error
    cases h
    obtain ⟨h1, h2, h3, h4, h5⟩ :=
      onIoWorkerInitialized_same (s.setReactor w { s.reactor w with stack := rest }) error
    exact life_members ht hst _ h1 h2 h3 h4 h5
  · cases h
    exact life_members ht hst [_] rfl rfl rfl rfl rfl
  · cases h
    exact life_members ht hst [] rfl rfl rfl rfl rfl
  · -- a shutdown is requested
    rename_i rc error
    obtain ⟨lastError, code, start, -, heq⟩ :=
      requestShutdown_eq (s.setReactor w { s.reactor w with stack := rest }) rc error
    rw [heq] at h
    cases h
    cases start
    · exact life_members ht hst [] rfl rfl rfl rfl rfl
    · exact life_members ht hst [_] rfl rfl rfl rfl rfl
  · -- the teardown is posted
    rename_i rc
    cases h
    unfold postBeginShutdown
    split
    · exact life_post ht hst [] (m := .beginShutdown) trivial 0 rfl
    · exact life_members ht hst [] rfl rfl rfl rfl rfl
  · -- the teardown begins
    split at h
    · cases h
      exact life_members ht hst [] rfl rfl rfl rfl rfl
    · cases h
      split
      · exact life_members ht hst [_] rfl rfl rfl rfl rfl
      · exact life_members ht hst [_] rfl rfl rfl rfl rfl
  · -- a worker's shutdown is posted
    rename_i i rc
    split at h
    · split at h
      · cases h
        exact life_post ht hst [_] (m := .shutdownIoWorker) trivial i rfl
      · cases h
        obtain ⟨-, -, -, -, hreq, hbatch, hdev, hbatches⟩ := releasePool_spec
          { s.setReactor w { s.reactor w with stack := rest } with ctx := { s.ctx with
            lastError := if s.ctx.lastError = "" then e.spdkError ("stopping SPDK I/O thread " ++ toString i) rc
              else s.ctx.lastError } } i
        exact life_release ht hst trivial (by simp [Frame.IsLife]) (postShutdown_reactor _ i)
          ⟨.refl _, rfl, rfl, SpdkBufferPool.new_wf, List.nodup_nil⟩ rfl rfl hreq hbatch hdev hbatches
    · cases h
  · split at h
    · cases h
    · cases h
      exact life_members ht hst [_] rfl rfl rfl rfl rfl
  · -- the flush of a worker
    rw [hpopped] at h
    dsimp only at h
    split at h
    · rename_i r tail hpending
      cases h
      have := life_flush (e := e) ht hst hpending "SPDK runtime is shutting down"
      simpa [Sys.setReactor] using this.weaken _
    · cases h
      exact life_members ht hst [_] rfl rfl rfl rfl rfl
  · -- a worker's resources are released
    obtain ⟨-, -, -, -, hreq, hbatch, hdev, hbatches⟩ :=
      releasePool_spec (s.setReactor w { s.reactor w with stack := rest }) w
    cases h
    refine life_release ht hst trivial ?_ (releaseIoWorker_reactor _ w)
      ⟨.refl _, rfl, rfl, SpdkBufferPool.new_wf, List.nodup_nil⟩ rfl rfl hreq hbatch hdev hbatches
    split <;> simp [Frame.IsLife]
  · rename_i rc
    cases h
    split
    · exact life_post ht hst [_] (m := .finishShutdown) trivial 0 rfl
    · exact life_members ht hst [_] rfl rfl rfl rfl rfl
  · cases h
    exact life_members ht hst [] rfl rfl rfl rfl rfl
  · cases h
    dsimp only
    split
    · exact life_members ht hst [_] rfl rfl rfl rfl rfl
    · exact life_members ht hst [] rfl rfl rfl rfl rfl
  · cases h
    exact life_members ht hst [_] rfl rfl rfl rfl rfl
  · cases h
    exact life_members ht hst [_] rfl rfl rfl rfl rfl
  · cases h

end SpdkBdevContext
end SpdkConnector
