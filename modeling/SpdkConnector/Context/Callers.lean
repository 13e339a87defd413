import SpdkConnector.Context.IoSteps

/-!
# The callers move requests

`submit_batch_and_wait`, from building a batch to leaving it: a batch is entered with every request in its
caller's hands, a dispatch is posted whole to the worker of its requests, and the requests of one that
cannot be posted are completed by the caller.
-/

namespace SpdkConnector
namespace SpdkBdevContext

open Interleaving

variable {e : Env} {s s' : Sys} {κ : Core} {w : Nat}

/-! ## Building a batch -/

/-- The worker of item `i` (:703). -/
def workerOf (s : Sys) (i : Nat) : Nat := (s.ctx.nextIoWorker % s.ctx.ioWorkers + i) % s.ctx.ioWorkers

theorem mem_makeDispatches {b count : Nat} {d : IoWorkerDispatch} (h : d ∈ makeDispatches s b count) :
    d.worker < s.ctx.ioWorkers ∧ d.requests ≠ [] ∧
    d.requests = ((List.range count).filter fun i => workerOf s i == d.worker).map fun i => (b, i) := by
  obtain ⟨v, hv, hd⟩ := List.mem_filterMap.1 h
  dsimp only at hd
  split at hd
  · cases hd
  · rename_i hne
    cases hd
    exact ⟨List.mem_range.1 hv, hne, rfl⟩

/-- The requests of the dispatches, without the empty ones left out. -/
theorem dispatched_eq (s : Sys) (b count : Nat) :
    (makeDispatches s b count).flatMap IoWorkerDispatch.requests =
      (List.range s.ctx.ioWorkers).flatMap fun w =>
        ((List.range count).filter fun i => workerOf s i == w).map fun i => (b, i) := by
  unfold makeDispatches
  induction List.range s.ctx.ioWorkers with
  | nil => rfl
  | cons v vs ih =>
    rw [List.filterMap_cons, List.flatMap_cons]
    dsimp only
    split
    · rename_i hnone
      split at hnone
      · rename_i hnil
        rw [ih]
        exact (congrArg (· ++ _) hnil).symm
      · cases hnone
    · rename_i d hd
      split at hd
      · cases hd
      · cases hd
        rw [List.flatMap_cons, ih]
        rfl

/-- Each request of the batch is in one dispatch. -/
theorem mem_dispatched {b count : Nat} (hw : s.ctx.ioWorkers ≠ 0) (r : Ref) :
    r ∈ (makeDispatches s b count).flatMap IoWorkerDispatch.requests ↔ r.1 = b ∧ r.2 < count := by
  obtain ⟨c, i⟩ := r
  simp only [dispatched_eq, List.mem_flatMap, List.mem_range, List.mem_map, List.mem_filter, beq_iff_eq,
    Prod.mk.injEq]
  constructor
  · rintro ⟨v, -, j, ⟨hj, -⟩, rfl, rfl⟩
    exact ⟨rfl, hj⟩
  · rintro ⟨rfl, hi⟩
    exact ⟨workerOf s i, Nat.mod_lt _ (Nat.pos_of_ne_zero hw), i, ⟨hi, rfl⟩, rfl, rfl⟩

theorem nodup_dispatched (s : Sys) (b count : Nat) :
    ((makeDispatches s b count).flatMap IoWorkerDispatch.requests).Nodup := by
  have hinj : Function.Injective fun i : Nat => ((b, i) : Ref) := fun i j h => (Prod.mk.inj h).2
  rw [dispatched_eq, List.nodup_flatMap]
  refine ⟨fun v _ => (List.nodup_range.filter _).map hinj, ?_⟩
  refine List.nodup_range.imp_of_mem fun {v u} _ _ hvu => ?_
  intro r hv hu
  obtain ⟨i, hi, rfl⟩ := List.mem_map.1 hv
  obtain ⟨j, hj, hij⟩ := List.mem_map.1 hu
  cases (Prod.mk.inj hij).2
  simp only [List.mem_filter, beq_iff_eq] at hi hj
  exact hvu (hi.2.symm.trans hj.2)

/-- A call that throws, or submits nothing, changes counters. -/
theorem submitBatch_cases (e : Env) (s : Sys) (operation : Operation) (items : List IoBatchItem)
    (memory : Nat → Nat → UInt8) :
    (∃ n m, submitBatch e s operation items memory = { s with ctx := { s.ctx with nextIoWorker := n }, metrics := m }) ∨
    ((∀ it ∈ items, it.Ok e.geometry) ∧ s.ctx.shutdownRequested = false ∧ s.ctx.closed = false ∧
      s.ctx.initializationSucceeded = true ∧ s.ctx.ioWorkers ≠ 0 ∧
      ∃ n m, submitBatch e s operation items memory =
      { s with
        ctx := { s.ctx with nextIoWorker := n }, metrics := m
        batch := Function.update s.batch s.batches
          ⟨operation, items, items.length, List.replicate items.length ⟨false, ""⟩, memory,
            .posting (makeDispatches s s.batches items.length)⟩
        request := fun r => if r.1 = s.batches ∧ r.2 < items.length then makeRequest s operation items r.2
          else s.request r
        batches := s.batches + 1 }) := by
  unfold submitBatch
  dsimp only
  split
  · exact .inl ⟨_, _, rfl⟩
  · rename_i hadmitted
    simp only [not_or, Bool.not_eq_true, Bool.not_eq_false] at hadmitted
    split
    · exact .inl ⟨_, _, rfl⟩
    · rename_i hall
      refine .inr ⟨fun it hit => ?_, hadmitted.2.2.1, hadmitted.2.1, hadmitted.2.2.2.1, hadmitted.2.2.2.2,
        _, _, rfl⟩
      have hpre := List.takeWhile_prefix (l := items) fun it => (validateItem e.geometry it).toBool
      have heq : items.takeWhile (fun it => (validateItem e.geometry it).toBool) = items :=
        hpre.eq_of_length (by have := hpre.length_le; omega)
      have hvalid := List.mem_takeWhile_imp (heq.symm ▸ hit)
      cases hv : validateItem e.geometry it with
      | error x => simp [hv, Except.toBool] at hvalid
      | ok u => exact validateItem_ok_iff.1 hv

/-- A request as it is built. -/
theorem makeRequest_fresh {operation : Operation} {items : List IoBatchItem} {i : Nat} {it : IoBatchItem}
    (h : items[i]? = some it) : Fresh (makeRequest s operation items i) i operation it :=
  ⟨rfl, rfl, by simp [makeRequest, List.getD_eq_getElem?_getD, h], rfl, rfl, rfl, rfl, rfl⟩

/-- The marks a submission may leave. -/
def submitMarks (s : Sys) (operation : Operation) (items : List IoBatchItem) : Mark → Prop :=
  fun m => m = .clashed ∧ ¬ NoOverlap s.batch operation items

/-- A call of `submit_batch_and_wait` up to its dispatch loop. -/
theorem submitBatch_follows (ht : Tracks s κ) (hc : Consistent e κ) (operation : Operation)
    (items : List IoBatchItem) (memory : Nat → Nat → UInt8) (hlen : items.length < 2 ^ 64) :
    Follows e (submitBatch e s operation items memory) κ (submitMarks s operation items) := by
  obtain ⟨n, m, heq⟩ | ⟨hok, -, -, -, hworkers, n, m, heq⟩ := submitBatch_cases e s operation items memory
  · rw [heq]
    exact ⟨κ, .refl, ⟨ht.request, ht.batch, ht.pool, ht.dma, ht.device, ht.ledger, ⟨ht.tidy.reactor,
      ht.tidy.dispatches, ht.tidy.fresh⟩⟩, fun _ => .inl⟩
  rw [heq]
  have hnew := ht.tidy.fresh s.batches (Nat.le_refl _)
  have habsent : ∀ i, κ.stage (s.batches, i) = .absent := fun i => by
    rw [hc.absent_iff, hc.idle_items _ (by rw [ht.batch]; exact hnew)]
    exact Nat.zero_le i
  let pc : CallerPc := .posting (makeDispatches s s.batches items.length)
  let ks := (makeDispatches s s.batches items.length).flatMap IoWorkerDispatch.requests
  have hks : ∀ r : Ref, r ∈ ks ↔ r.1 = s.batches ∧ r.2 < items.length := mem_dispatched hworkers
  have hold : ∀ r, r ∈ ks → κ.stage r = .absent := fun r hr => by
    have := habsent r.2
    rwa [← ((hks r).1 hr).1] at this
  refine ⟨_, .single (.submit s.batches operation items memory pc (makeRequest s operation items)
    (by rw [ht.batch]; exact hnew) hlen hok ⟨by simp [pc], by simp [pc]⟩ (by simp [pc])
    fun i it hi => makeRequest_fresh hi), ?_, fun m hm => hm.imp id fun h => ⟨h.1, by rw [← ht.batch]; exact h.2⟩⟩
  refine ⟨?_, ?_, ht.pool, ht.dma, ht.device, ?_, ⟨ht.tidy.reactor, fun b d hd => ?_, fun b hb => ?_⟩⟩
  · simp [ht.request]
  · simp [ht.batch, pc]
  · -- the requests are entered in the caller's hands
    have hhome : ∀ k, homeOf (fun r => if r.1 = s.batches ∧ r.2 < items.length then
        makeRequest s operation items r.2 else s.request r) k (κ.stage k) = homeOf s.request k (κ.stage k) := by
      intro k
      by_cases hk : k ∈ ks
      · rw [hold k hk]
        rfl
      · have hk' := mt (hks k).2 hk
        simp only [homeOf, if_neg hk']
    have henter : Ledger _ (fun p => if p = .caller s.batches then ks.map (·, .held) else shown s p) _ :=
      (ht.ledger.rehome hhome).enter (p := .caller s.batches) ks (b := .held)
        (nodup_dispatched s s.batches items.length) (fun k hk => by rw [hold k hk]; rfl) ?_ ?_ ?_
    · convert henter using 1
      · funext p
        cases p with
        | worker v => rfl
        | caller b =>
          rcases eq_or_ne b s.batches with rfl | hb
          · simp [shown, CallerPc.refs, ks]
          · simp [shown, hb]
      · funext r
        by_cases hr : r ∈ ks
        · rw [if_pos hr]
          exact if_pos ((hks r).1 hr)
        · rw [if_neg hr]
          exact if_neg (mt (hks r).2 hr)
    · simp [shown, hnew, CallerPc.refs]
    · intro r hr
      simp [hr]
    · intro k hk
      simp [homeOf, Stage.home, ((hks k).1 hk).1]
  · simp only [Function.update_apply] at hd
    split at hd
    · rename_i hb
      obtain ⟨-, hne, hreq⟩ := mem_makeDispatches hd
      refine ⟨hne, fun r hr => ?_⟩
      rw [hreq] at hr
      obtain ⟨i, hi, rfl⟩ := List.mem_map.1 hr
      simp only [List.mem_filter, List.mem_range, beq_iff_eq] at hi
      simpa [hi.1, makeRequest, workerOf] using hi.2
    · rename_i hb
      obtain ⟨h1, h2⟩ := ht.tidy.dispatches b d hd
      refine ⟨h1, fun r hr => ?_⟩
      have hrb : r.1 ≠ s.batches := by
        intro hrb
        have hmem : r ∈ (s.batch b).caller.refs := by
          revert hd
          cases (s.batch b).caller <;> simp only [CallerPc.dispatches, CallerPc.refs, List.not_mem_nil,
            false_imp_iff, List.mem_append, List.mem_flatMap, List.mem_cons] <;> intro hd
          · exact ⟨d, hd, hr⟩
          · rcases hd with rfl | hd
            · exact .inl hr
            · exact .inr ⟨d, hd, hr⟩
          · exact .inr ⟨d, hd, hr⟩
          · exact .inr ⟨d, hd, hr⟩
        exact hb ((ht.held hmem).2 ▸ hrb)
      simpa [hrb] using h2 r hr
  · simp only [Function.update_apply]
    split
    · rename_i hbb
      exact absurd (show s.batches + 1 ≤ b from hb) (by omega)
    · exact ht.tidy.fresh b (Nat.le_of_succ_le hb)

/-! ## Its steps -/

/-- A dispatch is posted (:727). -/
theorem post_follows (ht : Tracks s κ) {b : Nat} {d : IoWorkerDispatch} {todo : List IoWorkerDispatch}
    (hpc : (s.batch b).caller = .sending d todo) :
    Follows e ((s.post d.worker (.executeWorkerBatch d)).setBatch b { s.batch b with caller := .posting todo }) κ
      fun m => m = .posted := by
  have hheld : ∀ r ∈ d.requests, κ.stage r = .held := fun r hr =>
    (ht.held (b := b) (by rw [hpc]; exact List.mem_append_left _ hr)).1
  obtain ⟨hne, hworker⟩ := ht.tidy.dispatches b d (by rw [hpc]; exact List.mem_cons_self)
  have hcarry : Ledger _ (shown ((s.post d.worker (.executeWorkerBatch d)).setBatch b
      { s.batch b with caller := .posting todo })) _ :=
    ht.ledger.carry (p := .caller b) (q := .worker d.worker) (by simp) d.requests (a := .held) (b := .queued)
      ((todo.flatMap IoWorkerDispatch.requests).map (·, .held)) ?_ ?_ ?_ ?_ ?_
  · refine ⟨_, .tail (.single (.post d.requests hheld)) (.caller b (.posting todo) ?_),
      ⟨ht.request, ?_, ?_, ?_, ht.device, ?_, ⟨fun v => ?_, fun c d' hd' => ?_, fun c hc => ?_⟩⟩,
      fun m hm => hm.imp id And.left⟩
    · show CallerMove (κ.batch b) _
      rw [ht.batch]
      exact ⟨by simp [hpc, CallerPc.Live], by simp, by simp, by simp [hpc]⟩
    · simp [Sys.setBatch, Sys.post, Sys.setReactor, ht.batch]
    · refine ht.pool.trans (funext fun v => ?_)
      rcases eq_or_ne v d.worker with rfl | hv
      · simp [Sys.setBatch, Sys.post, Sys.setReactor]
      · simp [Sys.setBatch, Sys.post, Sys.setReactor, hv]
    · refine ht.dma.trans (funext fun v => ?_)
      rcases eq_or_ne v d.worker with rfl | hv
      · simp [Sys.setBatch, Sys.post, Sys.setReactor]
      · simp [Sys.setBatch, Sys.post, Sys.setReactor, hv]
    · show Ledger (homeOf s.request) _ _
      convert hcarry using 1
      funext r
      by_cases hr : r ∈ d.requests
      · rw [if_pos hr]
        exact if_pos hr
      · rw [if_neg hr]
        exact if_neg hr
    · have htidy := ht.tidy.reactor v
      rcases eq_or_ne v d.worker with rfl | hv
      · refine ⟨?_, ?_, ?_, fun d' hd' => ?_⟩
        · simpa [Sys.setBatch, Sys.post, Sys.setReactor] using htidy.pool
        · simpa [Sys.setBatch, Sys.post, Sys.setReactor] using htidy.buffers
        · simpa [Sys.setBatch, Sys.post, Sys.setReactor] using htidy.frames
        · simp only [Sys.setBatch, Sys.post, Sys.setReactor, Function.update_self, List.mem_append,
            List.mem_singleton, Msg.executeWorkerBatch.injEq] at hd'
          rcases hd' with hd' | rfl
          · exact htidy.posted d' hd'
          · exact hne
      · simpa [Sys.setBatch, Sys.post, Sys.setReactor, hv] using htidy
    · rcases eq_or_ne c b with rfl | hcb
      · refine ht.tidy.dispatches c d' ?_
        simp only [Sys.setBatch, Function.update_self, CallerPc.dispatches] at hd'
        rw [hpc]
        exact List.mem_cons_of_mem _ hd'
      · simp only [Sys.setBatch, Function.update_of_ne hcb] at hd'
        exact ht.tidy.dispatches c d' hd'
    · have habs := ht.tidy.fresh c hc
      rcases eq_or_ne c b with rfl | hcb
      · rw [hpc] at habs
        cases habs
      · simpa [Sys.setBatch, Sys.post, Sys.setReactor, hcb] using habs
  · simp [shown, hpc, CallerPc.refs]
  · simp [shown, Sys.setBatch, CallerPc.refs]
  · rw [List.perm_iff_count]
    intro y
    simp only [shown, Sys.setBatch, Sys.post, Sys.setReactor, Function.update_self, count_entries,
      List.flatMap_append, List.flatMap_cons, List.flatMap_nil, List.append_nil, List.count_append, Msg.entries,
      Msg.frame, Frame.entries, IoFrame.entries]
    omega
  · intro p hp hq
    cases p with
    | worker v =>
      have hv : v ≠ d.worker := fun h => hq (h ▸ rfl)
      simp [shown, Sys.setBatch, Sys.post, Sys.setReactor, hv]
    | caller c =>
      have hcb : c ≠ b := fun h => hp (h ▸ rfl)
      simp [shown, Sys.setBatch, hcb, Sys.post, Sys.setReactor]
  · intro r hr
    simp [homeOf, Stage.home, hworker r hr]

/-- The caller completes a request of a dispatch that could not be posted (:736). -/
theorem fail_follows (ht : Tracks s κ) (hc : Consistent e κ) {b : Nat} {r : Ref} {rs : List Ref} {error : String}
    {todo : List IoWorkerDispatch} (hpc : (s.batch b).caller = .failing (r :: rs) error todo) (pc : CallerPc)
    (hgo : pc = .failing rs error todo ∨ pc = .notifying rs error todo) :
    Follows e ((completeRequest s r false error).1.setBatch b
      { (completeRequest s r false error).1.batch b with caller := pc }) κ noMarks := by
  obtain ⟨hstage, hb⟩ := ht.held (b := b) (r := r) (by rw [hpc]; exact List.mem_append_left _ List.mem_cons_self)
  have hfits := hc.fits r
  rw [hstage, ht.request] at hfits
  obtain ⟨⟨-, -, hbatches, -, hdev⟩, hreactor, hreq, hbatch, -⟩ := completeRequest_spec (s := s) hfits.1 false error
  subst hb
  have hpcs : pc.Live ∧ pc ≠ .absent ∧ pc ≠ .returning ∧ pc ≠ .returned ∧
      pc.refs = rs ++ todo.flatMap IoWorkerDispatch.requests ∧ pc.dispatches = todo := by
    rcases hgo with rfl | rfl <;> simp [CallerPc.Live, CallerPc.refs, CallerPc.dispatches]
  have hcaller : ∀ c, (((completeRequest s r false error).1.setBatch r.1
      { (completeRequest s r false error).1.batch r.1 with caller := pc }).batch c).caller =
      if c = r.1 then pc else (s.batch c).caller := by
    intro c
    rw [hbatch]
    rcases eq_or_ne c r.1 with rfl | hcb
    · simp [Sys.setBatch]
    · simp [Sys.setBatch, hbatch, hcb]
  have hworker : ∀ r', ((completeRequest s r false error).1.request r').worker = (s.request r').worker := by
    intro r'
    rw [hreq]
    exact worker_update (by rfl) r'
  have hdrop : Ledger _ (shown ((completeRequest s r false error).1.setBatch r.1
      { (completeRequest s r false error).1.batch r.1 with caller := pc })) _ :=
    ht.ledger.drop (p := .caller r.1) (k := r) (a := .held) (b := .completed)
      ((rs ++ todo.flatMap IoWorkerDispatch.requests).map (·, .held)) ?_ ?_ ?_ rfl
  · refine ⟨_, .tail (.tail (.single (.abandon r (.inr hstage))) (.complete r false error (by simp)))
      (.caller r.1 pc ?_), ⟨?_, ?_, ?_, ?_, ?_, ?_, ⟨fun v => ?_, fun c d hd => ?_, fun c hcb => ?_⟩⟩, fun m hm => .inl hm⟩
    · refine ⟨?_, hpcs.2.1, fun h => absurd h hpcs.2.2.1, fun h => absurd h hpcs.2.2.2.1, fun h => ?_⟩
      · simp [Core.complete, ht.batch, hpc, CallerPc.Live]
      · simp [Core.complete, ht.batch, hpc] at h
    · simp [Core.complete, Sys.setBatch, hreq, ht.request]
    · simp [Core.complete, Sys.setBatch, hbatch, ht.batch, ht.request]
    · simp [Core.complete, Sys.setBatch, hreactor, ht.pool]
    · simp [Core.complete, Sys.setBatch, hreactor, ht.dma]
    · simp [Core.complete, Sys.setBatch, hdev, ht.device]
    · have hhome : homeOf ((completeRequest s r false error).1.setBatch r.1
          { (completeRequest s r false error).1.batch r.1 with caller := pc }).request = homeOf s.request := by
        funext r' st
        simp only [homeOf, Sys.setBatch, hworker]
      rw [hhome]
      simpa [Core.complete] using hdrop
    · simpa [Sys.setBatch, hreactor] using ht.tidy.reactor v
    · rw [hcaller] at hd
      simp only [Sys.setBatch, hworker]
      split at hd
      · rename_i hcb
        refine ht.tidy.dispatches r.1 d ?_
        rw [hpc]
        exact hpcs.2.2.2.2.2 ▸ hd
      · exact ht.tidy.dispatches c d hd
    · have habs := ht.tidy.fresh c (by simpa [Sys.setBatch, hbatches] using hcb)
      rw [hcaller]
      split
      · rename_i hcr
        rw [hcr, hpc] at habs
        cases habs
      · exact habs
  · simp [shown, hpc, CallerPc.refs]
  · simp only [shown, hcaller, if_pos, hpcs.2.2.2.2.1]
    exact .refl _
  · intro q hq
    cases q with
    | worker v => simp [shown, Sys.setBatch, hreactor]
    | caller c =>
      have hcb : c ≠ r.1 := fun h => hq (h ▸ rfl)
      simp [shown, hcaller, hcb]

/-- One step of the caller of a batch. -/
theorem callerStep_follows (ht : Tracks s κ) (hc : Consistent e κ) {b : Nat} {c : Choice}
    (h : callerStep e s b c = some s') : Follows e s' κ fun m => m = .posted := by
  have hgo : ∀ pc : CallerPc, (s.batch b).caller.Live → pc ≠ .absent →
      (pc = .returning → (s.batch b).remaining = 0) → (pc = .returned ↔ (s.batch b).caller = .returning) →
      pc.refs = (s.batch b).caller.refs → (∀ d ∈ pc.dispatches, d ∈ (s.batch b).caller.dispatches) →
      Follows e (s.setBatch b { s.batch b with caller := pc }) κ fun m => m = .posted := by
    intro pc h1 h2 h3 h4 h5 h6
    exact (caller_follows ht pc ⟨h1, h2, h3, h4⟩ h5 h6).mono fun _ hm => hm.elim
  unfold callerStep at h
  dsimp only at h
  split at h
  · rename_i hpc
    cases h
    exact hgo _ (by simp [hpc, CallerPc.Live]) (by simp) (by simp) (by simp [hpc]) (by simp [hpc, CallerPc.refs])
      (by simp [CallerPc.dispatches])
  · rename_i d todo hpc
    split at h
    · cases h
      exact hgo _ (by simp [hpc, CallerPc.Live]) (by simp) (by simp) (by simp [hpc]) (by simp [hpc, CallerPc.refs])
        (fun d' hd' => by rw [hpc]; exact List.mem_cons_of_mem _ hd')
    · cases h
      exact hgo _ (by simp [hpc, CallerPc.Live]) (by simp) (by simp) (by simp [hpc]) (by simp [hpc, CallerPc.refs])
        (fun d' hd' => by rw [hpc]; exact hd')
  · -- the post
    rename_i d todo rc hpc
    have hfail : ∀ error : String,
        Follows e (s.setBatch b { s.batch b with caller := .failing d.requests error todo }) κ fun m => m = .posted := by
      intro error
      exact hgo _ (by simp [hpc, CallerPc.Live]) (by simp) (by simp) (by simp [hpc]) (by simp [hpc, CallerPc.refs])
        (fun d' hd' => by rw [hpc]; exact List.mem_cons_of_mem _ hd')
    split at h
    · cases h
      exact hfail _
    · split at h
      · cases h
        exact hfail _
      · cases h
        exact post_follows ht hpc
  · rename_i error todo hpc
    cases h
    exact hgo _ (by simp [hpc, CallerPc.Live]) (by simp) (by simp) (by simp [hpc]) (by simp [hpc, CallerPc.refs])
      (fun d' hd' => by rw [hpc]; exact hd')
  · -- a request is completed by its caller
    rename_i r rs error todo hpc
    cases h
    refine (fail_follows ht hc hpc _ ?_).mono fun _ hm => hm.elim
    split <;> simp
  · rename_i rs error todo hpc
    cases h
    exact hgo _ (by simp [hpc, CallerPc.Live]) (by simp) (by simp) (by simp [hpc]) (by simp [hpc, CallerPc.refs])
      (fun d' hd' => by rw [hpc]; exact hd')
  · -- the predicate of the wait
    rename_i hpc
    cases h
    split
    · rename_i hzero
      exact hgo _ (by simp [hpc, CallerPc.Live]) (by simp) (fun _ => hzero) (by simp [hpc])
        (by simp [hpc, CallerPc.refs]) (by simp [CallerPc.dispatches])
    · exact hgo _ (by simp [hpc, CallerPc.Live]) (by simp) (by simp) (by simp [hpc]) (by simp [hpc, CallerPc.refs])
        (by simp [CallerPc.dispatches])
  · rename_i hpc
    cases h
    exact hgo _ (by simp [hpc, CallerPc.Live]) (by simp) (by simp) (by simp [hpc]) (by simp [hpc, CallerPc.refs])
      (by simp [CallerPc.dispatches])
  · rename_i hpc
    cases h
    exact hgo _ (by simp [hpc, CallerPc.Live]) (by simp) (by simp) (by simp [hpc]) (by simp [hpc, CallerPc.refs])
      (by simp [CallerPc.dispatches])
  · cases h

end SpdkBdevContext
end SpdkConnector
