import SpdkConnector.Context.Completion
import Mathlib.Algebra.BigOperators.Group.Finset.Basic

/-!
# The I/O counters

`submitted_io` counts the requests of a batch while it is built (spdk_bdev_context.cpp:725), the other three
count in `complete_request` (:962). `Counts` is the part of the state they are about: a step leaves it alone,
completes one request, or submits a batch. The requests between the two are those the batches still wait for,
`remaining` of each, and those lost with a batch whose building threw.
-/

namespace SpdkConnector
namespace SpdkBdevContext

open Interleaving

variable {e : Env} {s s' : Sys} {κ : Core} {w : Nat}

/-- The counters, and what the batches still wait for. -/
structure Counts where
  submitted : Nat
  completed : Nat
  succeeded : Nat
  failed : Nat
  remaining : Nat → Nat
  batches : Nat

def counts (s : Sys) : Counts :=
  ⟨s.metrics.submitted, s.metrics.completed, s.metrics.succeeded, s.metrics.failed,
    fun b => (s.batch b).remaining, s.batches⟩

/-! ## What leaves the counts alone -/

@[simp] theorem counts_setReactor (s : Sys) (w : Nat) (x : Reactor) : counts (s.setReactor w x) = counts s := rfl

@[simp] theorem counts_setRequest (s : Sys) (r : Ref) (q : IoRequest) : counts (s.setRequest r q) = counts s := rfl

@[simp] theorem counts_post (s : Sys) (w : Nat) (m : Msg) : counts (s.post w m) = counts s := rfl

@[simp] theorem counts_notifyAll (s : Sys) : counts s.notifyAll = counts s := rfl

theorem counts_setBatch {b : Nat} {x : IoBatchRequest} (h : x.remaining = (s.batch b).remaining) :
    counts (s.setBatch b x) = counts s := by
  have hsame : (fun c => (Function.update s.batch b x c).remaining) = fun c => (s.batch c).remaining := by
    funext c
    by_cases hc : c = b
    · subst hc
      rw [Function.update_self, h]
    · rw [Function.update_of_ne hc]
  simp only [counts, Sys.setBatch, hsame]

theorem counts_setCaller (s : Sys) (b : Nat) (pc : CallerPc) :
    counts (s.setBatch b { s.batch b with caller := pc }) = counts s := counts_setBatch rfl

@[simp] theorem counts_releaseBuffer (r : Ref) : counts (releaseBuffer e s r) = counts s := by
  unfold releaseBuffer
  dsimp only
  split
  · rfl
  · split <;> rfl

theorem counts_failIo (r : Ref) (error : String) : counts (failIo e s r error).1 = counts s := counts_releaseBuffer r

theorem counts_submitIo (r : Ref) (index : Nat) (submitResult waitResult sendResult : Int) :
    counts (submitIo e s r index submitResult waitResult sendResult).1 = counts s := by
  unfold submitIo
  dsimp only
  split
  · exact counts_failIo r _
  · split
    · split
      · exact counts_releaseBuffer r
      · split
        · exact counts_releaseBuffer r
        · exact counts_releaseBuffer r
    · split
      · exact counts_failIo r _
      · rfl

theorem counts_executeIo (r : Ref) (submitResult waitResult sendResult : Int) :
    counts (executeIo e s w r submitResult waitResult sendResult).1 = counts s := by
  unfold executeIo
  dsimp only
  split
  · exact counts_failIo r _
  · split
    · exact counts_failIo r _
    · rfl
    · exact counts_submitIo r _ _ _ _

theorem counts_completeIo (r : Ref) (success : Bool) : counts (completeIo e s r success).1 = counts s := by
  unfold completeIo
  dsimp only
  split
  · split
    · exact counts_failIo r _
    · refine (counts_releaseBuffer r).trans ?_
      rw [counts_setRequest]
      exact counts_setBatch rfl
  · exact counts_releaseBuffer r

@[simp] theorem counts_releasePool (w : Nat) : counts (releasePool s w) = counts s := by
  unfold releasePool releaseAccounting
  dsimp only
  split <;> rfl

theorem counts_initializeIoWorker (onReactor channel : Bool) (obtained : Nat) :
    counts (initializeIoWorker e s w onReactor channel obtained).1 = counts s := by
  unfold initializeIoWorker
  dsimp only
  split
  · rfl
  · split
    · rfl
    · split <;> rfl

theorem counts_onIoWorkerInitialized (error : String) : counts (onIoWorkerInitialized s error).1 = counts s := by
  obtain ⟨lastError, heq⟩ := onIoWorkerInitialized_eq s error
  rw [heq]
  split <;> rfl

theorem counts_requestShutdown (rc : Int) (error : String) : counts (requestShutdown s rc error).1 = counts s := by
  obtain ⟨lastError, code, start, -, heq⟩ := requestShutdown_eq s rc error
  rw [heq]
  rfl

theorem counts_postBeginShutdown (rc : Int) : counts (postBeginShutdown e s rc) = counts s := by
  unfold postBeginShutdown
  dsimp only
  split <;> rfl

/-- The life cycle counts nothing. -/
theorem counts_runLife {f : LifeFrame} {c : Choice} {frames : List Frame}
    (h : runLife e s w f c = some (s', frames)) : counts s' = counts s := by
  unfold runLife at h
  split at h
  case h_6 =>
    cases h
    exact counts_initializeIoWorker _ _ _
  case h_7 =>
    cases h
    exact counts_onIoWorkerInitialized _
  case h_10 =>
    cases h
    exact counts_requestShutdown _ _
  case h_11 =>
    cases h
    exact counts_postBeginShutdown _
  all_goals
    try dsimp only at h
    repeat' split at h
    all_goals cases h
    all_goals first | rfl | exact counts_releasePool _

/-! ## What changes it -/

/-- A request of batch `b` is completed. -/
def Counts.complete (t : Counts) (b : Nat) (success : Bool) : Counts :=
  { t with
    completed := add64 t.completed 1
    succeeded := if success then add64 t.succeeded 1 else t.succeeded
    failed := if success then t.failed else add64 t.failed 1
    remaining := Function.update t.remaining b (sub64 (t.remaining b) 1) }

/-- A call throws after building `n` requests. -/
def Counts.throw (t : Counts) (n : Nat) : Counts := { t with submitted := add64 t.submitted n }

/-- A batch of `n` requests is built. -/
def Counts.build (t : Counts) (n : Nat) : Counts :=
  { t with
    submitted := add64 t.submitted n
    remaining := Function.update t.remaining t.batches n
    batches := t.batches + 1 }

theorem counts_completeRequest {r : Ref} (hr : (s.request r).completed = false) (success : Bool) (error : String) :
    counts (completeRequest s r success error).1 = (counts s).complete r.1 success := by
  unfold completeRequest
  simp only [hr, Bool.false_eq_true, if_false, counts, Counts.complete, Sys.setBatch, Sys.setRequest]
  congr 1
  funext c
  by_cases hc : c = r.1
  · subst hc
    simp
  · simp [hc]

/-- The checks of `submit_batch_and_wait` before it builds a request (:677-694). -/
def Admits (s : Sys) (items : List IoBatchItem) : Prop :=
  ¬ (items = [] ∨ s.ctx.closed ∨ s.ctx.shutdownRequested ∨ ¬ s.ctx.initializationSucceeded ∨
    s.ctx.ioWorkers = 0)

instance (s : Sys) (items : List IoBatchItem) : Decidable (Admits s items) := by
  unfold Admits
  infer_instance

/-- `validate_item` accepts the item. -/
def Valid (e : Env) (it : IoBatchItem) : Bool := (validateItem e.geometry it).toBool

/-- The items before the first that `validate_item` rejects: those whose requests are built. -/
def builtItems (e : Env) (items : List IoBatchItem) : List IoBatchItem := items.takeWhile (Valid e)

theorem builtItems_le (e : Env) (items : List IoBatchItem) : (builtItems e items).length ≤ items.length :=
  (List.takeWhile_prefix _).length_le

/-- A call counts what it built, also when it throws. -/
theorem counts_submitBatch (operation : Operation) (items : List IoBatchItem) (memory : Nat → Nat → UInt8) :
    counts (submitBatch e s operation items memory) =
      if Admits s items then
        if (builtItems e items).length < items.length then (counts s).throw (builtItems e items).length
        else (counts s).build items.length
      else counts s := by
  unfold submitBatch
  dsimp only
  by_cases hadmits : Admits s items
  · rw [if_neg hadmits, if_pos hadmits]
    show counts (if (builtItems e items).length < items.length then _ else _) = _
    by_cases hthrows : (builtItems e items).length < items.length
    · rw [if_pos hthrows, if_pos hthrows]
      rfl
    · have hall : (builtItems e items).length = items.length :=
        Nat.le_antisymm (builtItems_le e items) (Nat.le_of_not_lt hthrows)
      rw [if_neg hthrows, if_neg hthrows]
      simp only [counts, Counts.build, Sys.setBatch]
      refine Counts.mk.injEq .. |>.mpr ⟨congrArg _ hall, rfl, rfl, rfl, ?_, rfl⟩
      funext c
      by_cases hc : c = s.batches
      · subst hc
        simp
      · simp [hc]
  · rw [if_pos (not_not.1 hadmits), if_neg hadmits]

/-- An I/O callback counts in `complete_request` and nowhere else. -/
theorem counts_runIo {f : IoFrame} {c : Choice} {frames : List IoFrame} (h : runIo e s w f c = some (s', frames)) :
    counts s' = counts s ∨ ∃ r success error, f = .completeRequest r success error ∧
      counts s' = counts (completeRequest s r success error).1 := by
  unfold runIo at h
  split at h
  · cases h
    exact .inl rfl
  · cases h
    exact .inl rfl
  · have heq := congrArg Prod.fst (Option.some.inj h)
    exact .inl ((congrArg counts heq.symm).trans (counts_executeIo _ _ _ _))
  · dsimp only at h
    split at h
    · cases h
    · split at h
      · cases h
        exact .inl rfl
      · cases h
  · cases h
    exact .inl rfl
  · have heq := congrArg Prod.fst (Option.some.inj h)
    exact .inl ((congrArg counts heq.symm).trans (counts_completeIo _ _))
  · rename_i r success error
    have heq := congrArg Prod.fst (Option.some.inj h)
    exact .inr ⟨r, success, error, rfl, congrArg counts heq.symm⟩
  · split at h
    · cases h
      exact .inl (counts_setBatch rfl)
    · cases h
      exact .inl rfl
  · dsimp only at h
    split at h
    · cases h
      exact .inl rfl
    · cases h
      exact .inl rfl
  · dsimp only at h
    split at h
    · split at h
      · cases h
        exact .inl rfl
      · cases h
        exact .inl rfl
    · cases h
      exact .inl rfl
  · cases h

theorem counts_pickUp {c : Choice} (h : pickUp s w c = some s') : counts s' = counts s := by
  unfold pickUp at h
  split at h
  all_goals
    try dsimp only at h
    repeat' split at h
    all_goals cases h
    all_goals rfl

/-- What a step does to the counts, a submission apart. -/
inductive Counts.Step (t : Counts) : Counts → Prop
  | same : Step t t
  | complete (b : Nat) (success : Bool) (hb : b < t.batches) (hpos : 0 < t.remaining b)
      (hlt : t.remaining b < 2 ^ 64) : Step t (t.complete b success)

/-- A request that is built and not completed is one its batch waits for. -/
theorem waited_for (ht : Tracks s κ) (hc : Consistent e κ) {r : Ref} (hbuilt : κ.stage r ≠ .absent)
    (hopen : (κ.stage r).Open) :
    r.1 < s.batches ∧ 0 < (s.batch r.1).remaining ∧ (s.batch r.1).remaining < 2 ^ 64 := by
  have hlt : r.2 < (κ.batch r.1).items.length := by
    rw [← Nat.not_le, ← hc.absent_iff]
    exact hbuilt
  have hcount := hc.remaining r.1
  have hsize := hc.size r.1
  have hle := openCount_le κ.stage r.1 (κ.batch r.1).items.length
  refine ⟨?_, ?_, ?_⟩
  · by_contra hb
    have habsent := ht.tidy.fresh r.1 (Nat.le_of_not_lt hb)
    rw [← ht.batch] at habsent
    rw [hc.idle_items r.1 habsent] at hlt
    exact Nat.not_lt_zero _ hlt
  · rw [← ht.batch, hcount, Nat.pos_iff_ne_zero]
    intro hzero
    exact openCount_zero hzero r.2 hlt hopen
  · rw [← ht.batch, hcount]
    exact Nat.lt_of_le_of_lt hle hsize

theorem complete_counts (ht : Tracks s κ) (hc : Consistent e κ) {r : Ref} (success : Bool) (error : String)
    (hstage : κ.stage r = .held ∨ κ.stage r = .closing success) :
    Counts.Step (counts s) (counts (completeRequest s r success error).1) := by
  have hfits := hc.fits r
  rw [ht.request] at hfits
  have hcompleted : (s.request r).completed = false := by
    rcases hstage with hstage | hstage <;> rw [hstage] at hfits <;> exact hfits.1
  obtain ⟨hb, hpos, hlt⟩ := waited_for ht hc (r := r) (by rcases hstage with hstage | hstage <;> simp [hstage])
    (by rcases hstage with hstage | hstage <;> simp [hstage, Stage.Open])
  rw [counts_completeRequest hcompleted]
  exact .complete r.1 success hb hpos hlt

theorem completeRequest_popped (x : Reactor) (r : Ref) (success : Bool) (error : String) :
    counts (completeRequest (s.setReactor w x) r success error).1 = counts (completeRequest s r success error).1 := by
  unfold completeRequest
  dsimp only [Sys.setReactor]
  split <;> rfl

theorem reactorStep_counts (ht : Tracks s κ) (hc : Consistent e κ) {c : Choice}
    (h : reactorStep e s w c = some s') : Counts.Step (counts s) (counts s') := by
  unfold reactorStep at h
  split at h
  · rw [counts_pickUp h]
    exact .same
  · rename_i f rest hst
    obtain ⟨⟨s1, fs⟩, hrun, rfl⟩ := Option.map_eq_some_iff.1 h
    rw [counts_setReactor]
    cases f with
    | io f =>
      obtain ⟨⟨s2, fs'⟩, hio, heq⟩ := Option.map_eq_some_iff.1 hrun
      cases heq
      obtain hsame | ⟨r, success, error, rfl, hdone⟩ := counts_runIo hio
      · rw [hsame]
        exact .same
      · have hentry := ht.entry (entries_frame (hst ▸ List.mem_cons_self)
          (show (r, Stage.closing success) ∈ (Frame.io (.completeRequest r success error)).entries from
            List.mem_singleton_self _))
        rw [hdone, completeRequest_popped]
        exact complete_counts ht hc success error (.inr hentry.1)
    | life f =>
      rw [counts_runLife hrun]
      exact .same

theorem callerStep_counts (ht : Tracks s κ) (hc : Consistent e κ) {b : Nat} {c : Choice}
    (h : callerStep e s b c = some s') : Counts.Step (counts s) (counts s') := by
  have hgoto : ∀ pc : CallerPc, Counts.Step (counts s) (counts (s.setBatch b { s.batch b with caller := pc })) := by
    intro pc
    rw [counts_setCaller]
    exact .same
  unfold callerStep at h
  dsimp only at h
  split at h
  · cases h
    exact hgoto _
  · split at h
    · cases h
      exact hgoto _
    · cases h
      exact hgoto _
  · split at h
    · cases h
      exact hgoto _
    · split at h
      · cases h
        exact hgoto _
      · cases h
        exact hgoto _
  · cases h
    exact hgoto _
  · rename_i r rs error todo hpc
    cases h
    have hheld := ht.held (b := b) (r := r) (by rw [hpc]; exact List.mem_append_left _ List.mem_cons_self)
    rw [counts_setCaller]
    exact complete_counts ht hc false error (.inl hheld.1)
  · cases h
    exact hgoto _
  · cases h
    exact hgoto _
  · cases h
    exact hgoto _
  · cases h
    exact hgoto _
  · cases h

theorem ownerStep_counts {c : Choice} (h : ownerStep e s c = some s') : counts s' = counts s := by
  unfold ownerStep at h
  split at h
  case h_7 =>
    cases h
    exact counts_requestShutdown _ _
  case h_8 =>
    cases h
    exact counts_postBeginShutdown _
  all_goals
    repeat' split at h
    all_goals cases h
    all_goals rfl

theorem transfer_counts {k n : Nat} (h : transfer e s w k n = some s') : counts s' = counts s := by
  unfold transfer at h
  dsimp only at h
  repeat' split at h
  all_goals cases h
  all_goals rfl

theorem disturb_counts {k : Nat} {noise : Nat → UInt8} (h : disturb e s w k noise = some s') :
    counts s' = counts s := by
  unfold disturb at h
  dsimp only at h
  repeat' split at h
  all_goals cases h
  all_goals rfl

/-! ## The balance -/

/-- What was submitted is completed or waited for, `lost` requests apart. -/
structure Counts.Balanced (t : Counts) (lost : Nat) : Prop where
  submitted : t.submitted = t.completed + ∑ b ∈ Finset.range t.batches, t.remaining b + lost
  completed : t.completed = t.succeeded + t.failed
  lt : t.submitted < 2 ^ 64

namespace Counts

variable {t t' : Counts} {lost n : Nat}

theorem Balanced.complete (h : t.Balanced lost) {b : Nat} (hb : b < t.batches) (hpos : 0 < t.remaining b)
    (hlt : t.remaining b < 2 ^ 64) (success : Bool) : (t.complete b success).Balanced lost := by
  have hmem : b ∈ Finset.range t.batches := Finset.mem_range.2 hb
  have hothers : ∑ c ∈ (Finset.range t.batches).erase b,
      Function.update t.remaining b (sub64 (t.remaining b) 1) c =
      ∑ c ∈ (Finset.range t.batches).erase b, t.remaining c :=
    Finset.sum_congr rfl fun c hc => Function.update_of_ne (Finset.ne_of_mem_erase hc) _ _
  have hold := Finset.add_sum_erase (Finset.range t.batches) t.remaining hmem
  have hnew := Finset.add_sum_erase (Finset.range t.batches)
    (Function.update t.remaining b (sub64 (t.remaining b) 1)) hmem
  rw [hothers, Function.update_self, sub64_exact hpos hlt] at hnew
  obtain ⟨h1, h2, h3⟩ := h
  have hcompleted : add64 t.completed 1 = t.completed + 1 := add64_exact (by omega)
  refine ⟨?_, ?_, h3⟩
  · simp only [Counts.complete, hcompleted, sub64_exact hpos hlt]
    omega
  · cases success with
    | true =>
      have hsucceeded : add64 t.succeeded 1 = t.succeeded + 1 := add64_exact (by omega)
      simp only [Counts.complete, hcompleted, hsucceeded, if_true]
      omega
    | false =>
      have hfailed : add64 t.failed 1 = t.failed + 1 := add64_exact (by omega)
      simp only [Counts.complete, hcompleted, hfailed, Bool.false_eq_true, if_false]
      omega

theorem Balanced.step (h : t.Balanced lost) (hs : t.Step t') : t'.Balanced lost := by
  cases hs with
  | same => exact h
  | complete b success hb hpos hlt => exact h.complete hb hpos hlt success

theorem Balanced.build (h : t.Balanced lost) (hn : t.submitted + n < 2 ^ 64) : (t.build n).Balanced lost := by
  obtain ⟨h1, h2, h3⟩ := h
  have holder : ∑ b ∈ Finset.range t.batches, Function.update t.remaining t.batches n b =
      ∑ b ∈ Finset.range t.batches, t.remaining b :=
    Finset.sum_congr rfl fun b hb => Function.update_of_ne (Nat.ne_of_lt (Finset.mem_range.1 hb)) _ _
  refine ⟨?_, h2, ?_⟩
  · simp only [Counts.build, add64_exact hn, Finset.sum_range_succ, holder, Function.update_self]
    omega
  · simpa only [Counts.build, add64_exact hn] using hn

/-- A call that throws loses what it built. -/
theorem Balanced.throw (h : t.Balanced lost) (hn : t.submitted + n < 2 ^ 64) :
    (t.throw n).Balanced (lost + n) := by
  obtain ⟨h1, h2, h3⟩ := h
  refine ⟨?_, h2, ?_⟩
  · simp only [Counts.throw, add64_exact hn]
    omega
  · simpa only [Counts.throw, add64_exact hn] using hn

end Counts

/-! ## Runs -/

/-- The requests an action counts and never completes. -/
def lostBy (e : Env) (s : Sys) : Action → Nat
  | .submit _ items _ =>
    if Admits s items ∧ (builtItems e items).length < items.length then (builtItems e items).length else 0
  | _ => 0

/-- `submitted_io_` does not wrap. -/
def NoWrap (e : Env) (s : Sys) : Action → Prop
  | .submit _ items _ => Admits s items → s.metrics.submitted + (builtItems e items).length < 2 ^ 64
  | _ => True

/-- An admitted call has no item that `validate_item` rejects after one that it accepts. -/
def CountsAll (e : Env) (s : Sys) : Action → Prop
  | .submit _ items _ => Admits s items → builtItems e items = items ∨ builtItems e items = []
  | _ => True

instance (e : Env) (s : Sys) (a : Action) : Decidable (NoWrap e s a) := by
  cases a <;> unfold NoWrap <;> infer_instance

instance (e : Env) (s : Sys) (a : Action) : Decidable (CountsAll e s a) := by
  cases a <;> unfold CountsAll <;> infer_instance

theorem lostBy_zero (e : Env) (s : Sys) (a : Action) : lostBy e s a = 0 ↔ CountsAll e s a := by
  cases a with
  | submit operation items memory =>
    have hle := builtItems_le e items
    have hall : builtItems e items = items ↔ (builtItems e items).length = items.length :=
      ⟨congrArg _, (List.takeWhile_prefix _).eq_of_length⟩
    simp only [lostBy, CountsAll, hall]
    by_cases hadmits : Admits s items
    · by_cases hthrows : (builtItems e items).length < items.length
      · rw [if_pos ⟨hadmits, hthrows⟩, List.length_eq_zero_iff]
        exact ⟨fun h _ => .inr h, fun h => (h hadmits).resolve_left (Nat.ne_of_lt hthrows)⟩
      · rw [if_neg fun h => hthrows h.2]
        exact ⟨fun _ _ => .inl (Nat.le_antisymm hle (Nat.le_of_not_lt hthrows)), fun _ => rfl⟩
    · rw [if_neg fun h => hadmits h.1]
      exact ⟨fun _ h => absurd h hadmits, fun _ => rfl⟩
  | _ => exact ⟨fun _ => trivial, fun _ => rfl⟩

/-- A step keeps the balance, but for what it loses. -/
theorem step_balanced {lost : Nat} (ht : Tracks s κ) (hc : Consistent e κ) (hb : (counts s).Balanced lost)
    {a : Action} (hwrap : NoWrap e s a) (h : step e s a = some s') : (counts s').Balanced (lost + lostBy e s a) := by
  cases a with
  | reactor w c =>
    simp only [step] at h
    split at h
    · exact hb.step (reactorStep_counts ht hc h)
    · cases h
  | caller b c => exact hb.step (callerStep_counts ht hc h)
  | submit operation items memory =>
    simp only [step] at h
    split at h
    · cases h
      rw [counts_submitBatch, lostBy]
      by_cases hadmits : Admits s items
      · have hfits := hwrap hadmits
        by_cases hthrows : (builtItems e items).length < items.length
        · rw [if_pos hadmits, if_pos hthrows, if_pos ⟨hadmits, hthrows⟩]
          exact hb.throw hfits
        · rw [if_pos hadmits, if_neg hthrows, if_neg fun h => hthrows h.2]
          rw [Nat.le_antisymm (builtItems_le e items) (Nat.le_of_not_lt hthrows)] at hfits
          exact hb.build hfits
      · rw [if_neg hadmits, if_neg fun h => hadmits h.1]
        exact hb
    · cases h
  | owner c =>
    rw [ownerStep_counts h]
    exact hb
  | transfer w k n =>
    rw [transfer_counts h]
    exact hb
  | disturb w k noise =>
    rw [disturb_counts h]
    exact hb
  | runtimeStops =>
    cases h
    exact hb

/-- A run from a tracked state: what it loses is nothing exactly when every call counts all it builds. -/
theorem run_balanced {as : List Action} : ∀ {s : Sys} {κ : Core} {lost : Nat}, Tracks s κ → Consistent e κ →
    (counts s).Balanced lost → Guarded (step e) (NoWrap e) s as → runFrom (step e) s as = some s' →
    ∃ lost' κ', lost ≤ lost' ∧ (lost' = lost ↔ Guarded (step e) (CountsAll e) s as) ∧
      (counts s').Balanced lost' ∧ Tracks s' κ' ∧ Consistent e κ' := by
  induction as with
  | nil =>
    intro s κ lost ht hc hb _ h
    cases h
    exact ⟨lost, κ, Nat.le_refl _, ⟨fun _ => trivial, fun _ => rfl⟩, hb, ht, hc⟩
  | cons a as ih =>
    intro s κ lost ht hc hb hwrap h
    obtain ⟨s1, hstep, hrest⟩ := runFrom_cons h
    obtain ⟨κ1, hm, ht1, -⟩ := step_follows ht hc hstep
    have hb1 := step_balanced ht hc hb hwrap.1 hstep
    obtain ⟨lost', κ', hle, hiff, hb', ht', hc'⟩ :=
      ih ht1 (moves_consistent hc hm) hb1 (hwrap.2 s1 hstep) hrest
    refine ⟨lost', κ', by omega, ?_, hb', ht', hc'⟩
    have hzero := lostBy_zero e s a
    constructor
    · intro heq
      refine ⟨hzero.1 (by omega), fun s2 hs2 => ?_⟩
      rw [hstep] at hs2
      cases hs2
      exact hiff.1 (by omega)
    · rintro ⟨hfirst, hothers⟩
      have h1 := hzero.2 hfirst
      have h2 := hiff.2 (hothers s1 hstep)
      omega

theorem init_balanced (device : Nat → UInt8) : (counts (Sys.init device)).Balanced 0 := by
  constructor <;> simp [counts, Sys.init]

/-- **The counters balance**: in a run in which `submitted_io` does not wrap, ended with no batch call in
progress, what completed is what succeeded and what failed, and what was submitted is what completed
exactly when no admitted call threw at an item after the first. -/
theorem counters_balance {device : Nat → UInt8} {as : List Action}
    (h : runFrom (step e) (Sys.init device) as = some s)
    (hwrap : Guarded (step e) (NoWrap e) (Sys.init device) as) (hidle : ∀ b, ¬ (s.batch b).caller.Live) :
    s.metrics.completed = s.metrics.succeeded + s.metrics.failed ∧
    (s.metrics.submitted = s.metrics.completed ↔ Guarded (step e) (CountsAll e) (Sys.init device) as) := by
  obtain ⟨lost, κ, -, hiff, hb, ht, hc⟩ :=
    run_balanced (init_tracks device) (init_consistent e device) (init_balanced device) hwrap h
  have hremaining : ∀ b, (s.batch b).remaining = 0 := by
    intro b
    have hover : (s.batch b).caller = .absent ∨ (s.batch b).caller = .returned := by
      have := hidle b
      unfold CallerPc.Live at this
      tauto
    rw [← ht.batch] at hover ⊢
    rcases hover with hover | hover
    · rw [hc.remaining b, hc.idle_items b hover]
      rfl
    · exact hc.returned b (.inr hover)
  have hsubmitted : s.metrics.submitted = s.metrics.completed +
      ∑ b ∈ Finset.range s.batches, (s.batch b).remaining + lost := hb.submitted
  rw [Finset.sum_eq_zero fun b _ => hremaining b] at hsubmitted
  refine ⟨hb.completed, ?_⟩
  rw [← hiff]
  omega

theorem counters_balance_pair : ∃ s, runFrom (step smallEnv) (Sys.init Nat.toUInt8) pairRun = some s ∧
    s.metrics.submitted = 3 ∧ s.metrics.completed = s.metrics.succeeded + s.metrics.failed ∧
    (s.metrics.submitted = s.metrics.completed ↔
      Guarded (step smallEnv) (CountsAll smallEnv) (Sys.init Nat.toUInt8) pairRun) := by
  have hend : (runFrom (step smallEnv) (Sys.init Nat.toUInt8) pairRun).any (fun s =>
      decide (s.metrics.submitted = 3)) = true := by decide +kernel
  obtain ⟨s, hrun, hs⟩ := (Option.any_eq_true _ _).1 hend
  exact ⟨s, hrun, of_decide_eq_true hs, counters_balance hrun (by decide +kernel) (pairRun_idle hrun)⟩

/-- A read of two items, the second without a buffer. -/
def driftRun : List Action :=
  openRun ++ [.submit .read [⟨some ⟨0, 0⟩, 1, 2, 2⟩, ⟨none, 1, 4, 2⟩] fun _ j => j.toUInt8]

/-- The call throws at its second item, with the first counted. -/
theorem counters_drift : ∃ s, runFrom (step smallEnv) (Sys.init Nat.toUInt8) driftRun = some s ∧
    Guarded (step smallEnv) (NoWrap smallEnv) (Sys.init Nat.toUInt8) driftRun ∧
    (∀ b, ¬ (s.batch b).caller.Live) ∧ s.metrics.submitted = 1 ∧ s.metrics.completed = 0 := by
  have hrun : runFrom (step smallEnv) (Sys.init Nat.toUInt8) driftRun = some _ := rfl
  exact ⟨_, hrun, by decide, fun b hlive => hlive.1 rfl, rfl, rfl⟩

end SpdkBdevContext
end SpdkConnector
