import SpdkConnector.Stack

/-!
# The connector over its context is the connector

A run of the whole system is a run of the connector's operations on a device that executes a batch's segments where
the batch returns (`stack_refines`). So what holds of every run of these holds of the system: its operations are
linearizable (`stack_linearizable`). The batches the threads wait for never meet (`stack_batches_apart`), which is
what the context asks of its callers.

| here | meaning |
| --- | --- |
| `Refines` | the pool that stands for a state: a waiting thread is still at its call |
| `Refines.advance` | steps of a thread in its operation |
| `refines_submit`, `refines_context`, `refines_returns` | the steps of the context |
-/

namespace SpdkConnector
namespace Stack

open Interleaving SpdkBdevContext

variable {e : Env} {S S' : State} {pool : Pool Shared Call Cmd Answer Exn Ret} {κ : Core} {D : Nat → UInt8}
  {device : Nat → UInt8} {calls : Nat → BatchCall} {t u b : Nat}

/-! ## Batches at one moment -/

/-- A step of the operations over a device that executes a batch at one moment. -/
inductive WholeStep (g : StorageGeometry) (pool : Pool Shared Call Cmd Answer Exn Ret) :
    Pool Shared Call Cmd Answer Exn Ret → Prop
  /-- A thread starts its operation, ends it, or makes a command that is none of a batch's. -/
  | act {pool' : Pool Shared Call Cmd Answer Exn Ret} {x : Act Call Choice}
      (hx : ∀ t ch j c k, x = .step t ch → pool.tasks t = some ⟨j, .call c k⟩ → transfers c = false)
      (h : pool.act (connector g) x = some pool') : WholeStep g pool pool'
  /-- A thread at a call of `submit_batch_and_wait` has all of it done, or is refused. -/
  | batch {t n : Nat} {j : Call} {p : P Ret} {op : Operation} {items : List IoBatchItem} {bufs : List Bytes}
      {rest : Except Exn (List IoResult × List Bytes) → P Ret} {choose : Nat → Choice}
      {o : Except Exn (List IoResult × List Bytes)} {s : Shared}
      (ht : pool.tasks t = some ⟨j, p⟩) (hat : AtBatch g p op items bufs rest)
      (hrun : (submitBatchAndWait g op items bufs).run (batchDevice g) t choose 0 pool.shared = some (o, n, s)) :
      WholeStep g pool { pool with shared := s, tasks := Function.update pool.tasks t (some ⟨j, rest o⟩) }

/-- They are runs of the connector. -/
theorem whole_runs {g : StorageGeometry} {pool' : Pool Shared Call Cmd Answer Exn Ret}
    (h : Relation.ReflTransGen (WholeStep g) pool pool') : ∃ as, pool.run (connector g) as = some pool' := by
  induction h with
  | refl => exact ⟨[], rfl⟩
  | tail _ hstep ih =>
    obtain ⟨as, has⟩ := ih
    cases hstep with
    | @act _ x hx h => exact ⟨as ++ [x], (Pool.run_append has).trans (by simp [Pool.run, h])⟩
    | batch ht hat hrun =>
      have hexec : (batchDevice g).exec = (connector g).exec := rfl
      obtain ⟨bs, hbs⟩ := Pool.run_handle hexec hrun (hat.prog ▸ ht)
      exact ⟨as ++ bs, (Pool.run_append has).trans hbs⟩

theorem run_single_act {g : StorageGeometry} {pool' : Pool Shared Call Cmd Answer Exn Ret} {x : Act Call Choice}
    (h : pool.run (connector g) [x] = some pool') : pool.act (connector g) x = some pool' := by
  simpa [Pool.run] using h

/-- A call the context refuses. -/
theorem refused_run {g : StorageGeometry} {op : Operation} {items : List IoBatchItem} {bufs : List Bytes}
    (hne : items ≠ []) (hok : ∀ it ∈ items, it.Ok g) (t : Nat) (error : String) (s : Shared) :
    (submitBatchAndWait g op items bufs).run (batchDevice g) t (fun _ => { refusal := some error }) 0 s =
      some (.error ⟨.runtimeError, error⟩, 1, s) := by
  obtain ⟨k, k', hk, herror, -⟩ := @submit_opened g op items bufs hne hok
  have hrun : Prog.run (batchDevice g) t (fun _ => { refusal := some error }) (.call .enqueue k) 0 s =
      Prog.run (batchDevice g) t (fun _ => { refusal := some error }) (k (.error ⟨.runtimeError, error⟩)) 1 s := rfl
  rw [hk, hrun, herror]
  rfl

/-! ## Waiting threads -/

/-- A worker as a thread of the connector's pool. -/
def Worker.task (g : StorageGeometry) (calls : Nat → BatchCall) (w : Worker) : Task Call Cmd Answer Exn Ret :=
  ⟨w.job, match w.place with
    | .running p => p
    | .waiting b bufs rest => (submitBatchAndWait g (calls b).operation (calls b).items bufs).handle rest⟩

/-- What is known of a thread that waits for batch `b`. -/
structure Inside (g : StorageGeometry) (s : Sys) (call : BatchCall) (b : Nat) (bufs : List Bytes) : Prop where
  live : (s.batch b).caller.Live
  backs : Backs bufs call.memory
  nonempty : call.items ≠ []
  ok : ∀ it ∈ call.items, it.Ok g
  fits : ∀ it ∈ call.items, Fits bufs it

/-- The pool that stands for a state of the system, its device being the one between the calls. -/
structure Refines (hg : e.geometry.Valid) (device : Nat → UInt8) (S : State)
    (pool : Pool Shared Call Cmd Answer Exn Ret) (κ : Core) (D : Nat → UInt8) (calls : Nat → BatchCall) : Prop where
  followed : ∃ γ, Followed hg pool γ
  linear : Linear e device S.context κ D calls
  shared : pool.shared = { S.shared with dev := D }
  tasks : pool.tasks = Option.map (Worker.task e.geometry calls) ∘ S.workers
  done : pool.done = S.done
  inside : ∀ t j b bufs rest, S.workers t = some ⟨j, .waiting b bufs rest⟩ →
    Inside e.geometry S.context (calls b) b bufs
  served : ∀ b, (S.context.batch b).caller.Live → ∃ t, S.Waits t b
  once : ∀ t u b, S.Waits t b → S.Waits u b → t = u

theorem waits_put_self {w : Option Worker} :
    (S.put t w).Waits t b ↔ ∃ j bufs rest, w = some ⟨j, .waiting b bufs rest⟩ := by
  simp [State.Waits, State.put]

theorem waits_put_other {w : Option Worker} (h : u ≠ t) : (S.put t w).Waits u b ↔ S.Waits u b := by
  simp [State.Waits, State.put, h]

/-- A thread that is put where it does not wait. -/
theorem waits_put {w : Option Worker} (hnew : ∀ j b bufs rest, w ≠ some ⟨j, .waiting b bufs rest⟩) :
    (S.put t w).Waits u b ↔ u ≠ t ∧ S.Waits u b := by
  by_cases h : u = t
  · subst h
    simp [waits_put_self, hnew]
  · simp [waits_put_other h, h]

@[simp] theorem put_context (S : State) (t : Nat) (w : Option Worker) : (S.put t w).context = S.context := rfl

/-- The task of a waiting thread. -/
theorem Refines.waiting {hg : e.geometry.Valid} (h : Refines hg device S pool κ D calls) {j : Call} {bufs : List Bytes}
    {rest : Except Exn (List IoResult × List Bytes) → P Ret}
    (ht : S.workers t = some ⟨j, .waiting b bufs rest⟩) :
    pool.tasks t = some ⟨j, (submitBatchAndWait e.geometry (calls b).operation (calls b).items bufs).handle rest⟩ ∧
    AtBatch e.geometry ((submitBatchAndWait e.geometry (calls b).operation (calls b).items bufs).handle rest)
      (calls b).operation (calls b).items bufs rest := by
  have hin := h.inside t j b bufs rest ht
  exact ⟨by simp [h.tasks, ht, Worker.task], rfl, hin.nonempty, hin.ok, hin.fits⟩

theorem Refines.running {hg : e.geometry.Valid} (h : Refines hg device S pool κ D calls) {j : Call}
    {p : P Ret} (ht : S.workers t = some ⟨j, .running p⟩) : pool.tasks t = some ⟨j, p⟩ := by
  simp [h.tasks, ht, Worker.task]

/-- A worker that stays in the same place, when the calls of the batches being served stay the same. -/
theorem task_same {calls' : Nat → BatchCall} {w : Worker}
    (h : ∀ b bufs rest, w.place = .waiting b bufs rest → calls' b = calls b) :
    w.task e.geometry calls' = w.task e.geometry calls := by
  obtain ⟨j, place⟩ := w
  cases place with
  | running p => rfl
  | waiting b bufs rest => simp only [Worker.task, h b bufs rest rfl]

/-! ## A thread in its operation -/

/-- A step of a thread that is not in the context. -/
theorem Refines.advance {hg : e.geometry.Valid} (h : Refines hg device S pool κ D calls) {as : List (Act Call Choice)}
    {w : Option Worker} {s : Shared} {d : List (Nat × Call × Outcome)} (hold : ∀ b, ¬ S.Waits t b)
    (hnew : ∀ j b bufs rest, w ≠ some ⟨j, .waiting b bufs rest⟩)
    (hrun : pool.run (connector e.geometry) as =
      some ⟨{ s with dev := D }, Function.update pool.tasks t (w.map (Worker.task e.geometry calls)), d⟩) :
    Refines hg device (State.put { S with shared := s, done := d } t w)
      ⟨{ s with dev := D }, Function.update pool.tasks t (w.map (Worker.task e.geometry calls)), d⟩ κ D calls where
  followed := by
    obtain ⟨γ, hf⟩ := h.followed
    obtain ⟨γ', hf', -⟩ := run_followed hf hrun
    exact ⟨γ', hf'⟩
  linear := h.linear
  shared := rfl
  tasks := by
    rw [h.tasks]
    exact (Function.comp_update _ _ _ _).symm
  done := rfl
  inside u j b bufs rest hu := by
    by_cases hut : u = t
    · subst hut
      exact absurd (by simpa [State.put] using hu) (hnew j b bufs rest)
    · exact h.inside u j b bufs rest (by simpa [State.put, hut] using hu)
  served b hb := by
    obtain ⟨u, hu⟩ := h.served b hb
    have hut : u ≠ t := by
      rintro rfl
      exact hold b hu
    exact ⟨u, (waits_put_other hut).2 hu⟩
  once u u' b hu hu' := h.once u u' b ((waits_put hnew).1 hu).2 ((waits_put hnew).1 hu').2

theorem not_waits_running {j : Call} {p : P Ret} (ht : S.workers t = some ⟨j, .running p⟩) (b : Nat) :
    ¬ S.Waits t b := by
  rintro ⟨j', bufs, rest, h⟩
  simp [ht] at h

/-- The commands outside a batch do not look at the device. -/
theorem exec_dev {g : StorageGeometry} {c : Cmd} {ch : Choice} {s s' : Shared} {r : Answer c} (hc : transfers c = false)
    (h : exec g t c ch s = some (r, s')) :
    exec g t c ch { s with dev := D } = some (r, { s' with dev := D }) := by
  cases c with
  | lock m =>
    simp only [exec] at h ⊢
    split at h
    · rename_i hfree
      cases h
      rw [if_pos hfree]
    · cases h
  | unlock m =>
    simp only [exec] at h ⊢
    split at h
    · rename_i hmine
      cases h
      rw [if_pos hmine]
    · cases h
  | stateFor key =>
    simp only [exec] at h ⊢
    split at h <;> cases h <;> simp_all
  | getEntry p =>
    cases h
    rfl
  | setEntry p x =>
    cases h
    rfl
  | allocate n =>
    simp only [exec] at h ⊢
    split at h <;> cases h <;> simp_all
  | release es =>
    simp only [exec] at h ⊢
    split at h <;> cases h <;> simp_all
  | enqueue => simp [transfers] at hc
  | pick n => simp [transfers] at hc
  | writeSegment it staged => simp [transfers] at hc
  | readSegment it => simp [transfers] at hc

/-! ## The steps of the context -/

theorem built_all {items : List IoBatchItem} (hok : ∀ it ∈ items, it.Ok e.geometry) :
    items.takeWhile (fun it => (validateItem e.geometry it).toBool) = items := by
  refine List.takeWhile_eq_self_iff.2 fun it hit => ?_
  rw [validateItem_ok_iff.2 (hok it hit)]
  rfl

/-- A valid call that is refused leaves the context as it was. -/
theorem submit_refused {s : Sys} {op : Operation} {items : List IoBatchItem} {memory : Nat → Nat → UInt8}
    (hok : ∀ it ∈ items, it.Ok e.geometry) (h : (submitBatch e s op items memory).batches = s.batches) :
    submitBatch e s op items memory = s := by
  unfold submitBatch at h ⊢
  dsimp only at h ⊢
  split
  · rfl
  · rename_i hadmitted
    rw [if_neg hadmitted, built_all hok, if_neg (Nat.lt_irrefl _)] at h
    simp at h

/-- A valid call of a context that is ready is admitted. -/
theorem submit_admitted {s : Sys} {op : Operation} {items : List IoBatchItem} {memory : Nat → Nat → UInt8}
    (hne : items ≠ []) (hok : ∀ it ∈ items, it.Ok e.geometry)
    (hready : ¬ (s.ctx.closed ∨ s.ctx.shutdownRequested ∨ ¬ s.ctx.initializationSucceeded ∨ s.ctx.ioWorkers = 0)) :
    (submitBatch e s op items memory).batches = s.batches + 1 := by
  unfold submitBatch
  simp only [hne, false_or, if_neg hready, built_all hok, Nat.lt_irrefl, if_false]

/-- A caller stays in its call until the call returns. -/
theorem live_kept {s s' : Sys} {κ' : Core} {a : Action} (h : Linear e device s κ D calls) (hm : Moves e κ κ')
    (ht' : Tracks s' κ') (hs : step e s a = some s') (hlive : (s.batch b).caller.Live) (hnot : ¬ Returns s b a) :
    (s'.batch b).caller.Live := by
  have ht := h.quiet.tracks
  refine ⟨?_, fun hr => (step_returned ht hs hr).elim hlive.2 hnot⟩
  rw [← ht'.batch]
  exact (moves_present hm (by rw [ht.batch]; exact hlive.1)).1

/-- Two threads in their calls do not meet on the device. -/
theorem Refines.apart {hg : e.geometry.Valid} (h : Refines hg device S pool κ D calls) {j : Call} {p : P Ret}
    {op : Operation} {items : List IoBatchItem} {bufs : List Bytes}
    {rest : Except Exn (List IoResult × List Bytes) → P Ret} (ht : pool.tasks t = some ⟨j, p⟩)
    (hat : AtBatch e.geometry p op items bufs rest) (hb : (S.context.batch b).caller.Live) (hnot : ¬ S.Waits t b)
    {it it' : IoBatchItem} (hit : it ∈ items) (hit' : it' ∈ (S.context.batch b).items) :
    ¬ Conflict op (S.context.batch b).operation it it' := by
  rintro ⟨hwrite, a, ha, ha'⟩
  obtain ⟨γ, hf⟩ := h.followed
  obtain ⟨u, hu⟩ := h.served b hb
  have hne : t ≠ u := by
    rintro rfl
    exact hnot hu
  obtain ⟨j', bufs', rest', hu⟩ := hu
  obtain ⟨htask, hat'⟩ := h.waiting hu
  have hserving := h.linear.serving b hb
  rw [← h.linear.quiet.tracks.batch] at hit' hwrite
  rw [hserving.items] at hit'
  rw [hserving.operation] at hwrite
  exact batches_apart hf.ok hne ht hat htask hat' hwrite hit hit' ⟨ha, ha'⟩

theorem separate_plain {s : Sys} {a : Action} (hsubmit : ∀ op items memory, a ≠ .submit op items memory) :
    Separate s a := by
  cases a with
  | submit op items memory => exact absurd rfl (hsubmit op items memory)
  | _ => exact ⟨trivial, trivial⟩

theorem callsAfter_plain {s : Sys} {a : Action} (hsubmit : ∀ op items memory, a ≠ .submit op items memory) :
    callsAfter s calls a = calls := by
  cases a with
  | submit op items memory => exact absurd rfl (hsubmit op items memory)
  | _ => rfl

/-- A step of the context that neither starts nor ends a call. -/
theorem refines_context {hg : e.geometry.Valid} (h : Refines hg device S pool κ D calls) (hcalm : S.context.Calm)
    {a : Action} {context : Sys} (hs : step e S.context a = some context)
    (hsubmit : ∀ op items memory, a ≠ .submit op items memory) (hreturn : ∀ b, ¬ Returns S.context b a) :
    ∃ κ', Refines hg device { S with context } pool κ' D calls := by
  obtain ⟨κ', hm, hlin⟩ := linear_step hg h.linear hcalm (separate_plain hsubmit) hs hreturn
  rw [callsAfter_plain hsubmit] at hlin
  refine ⟨κ', { h with linear := hlin, inside := fun t j b bufs rest ht => ?_, served := fun b hb => ?_ }⟩
  · have hin := h.inside t j b bufs rest ht
    exact { hin with live := live_kept h.linear hm hlin.quiet.tracks hs hin.live (hreturn b) }
  · refine h.served b ((step_live h.linear.quiet.tracks hs hb).resolve_right ?_)
    rintro ⟨-, op, items, memory, ha⟩
    exact hsubmit op items memory ha

theorem pairwise_at {α : Type} {R : α → α → Prop} (hsymm : ∀ {x y}, R x y → R y x) {l : List α} (h : l.Pairwise R)
    {i j : Nat} {x y : α} (hi : l[i]? = some x) (hj : l[j]? = some y) (hne : i ≠ j) : R x y := by
  obtain ⟨hlt, rfl⟩ := List.getElem?_eq_some_iff.1 hi
  obtain ⟨hlt', rfl⟩ := List.getElem?_eq_some_iff.1 hj
  rcases Nat.lt_or_gt_of_ne hne with hij | hji
  · exact List.pairwise_iff_getElem.1 h i j hlt hlt' hij
  · exact hsymm (List.pairwise_iff_getElem.1 h j i hlt' hlt hji)

/-- A thread enters the context. -/
theorem refines_submit {hg : e.geometry.Valid} (h : Refines hg device S pool κ D calls) (hcalm : S.context.Calm)
    {j : Call} {p : P Ret} {op : Operation} {items : List IoBatchItem} {bufs : List Bytes}
    {rest : Except Exn (List IoResult × List Bytes) → P Ret} {memory : Nat → Nat → UInt8} {context : Sys}
    (ht : S.workers t = some ⟨j, .running p⟩) (hat : AtBatch e.geometry p op items bufs rest) (hmemory : Backs bufs memory)
    (hs : step e S.context (.submit op items memory) = some context) (hadmitted : context.batches ≠ S.context.batches) :
    ∃ κ' calls', Refines hg device ({ S with context }.put t (some ⟨j, .waiting S.context.batches bufs rest⟩)) pool κ' D
      calls' := by
  have hnot := not_waits_running ht
  obtain ⟨γ, hf⟩ := h.followed
  have hapart := hf.apart (h.running ht) hat
  have hseparate : Separate S.context (.submit op items memory) := by
    refine ⟨⟨fun i i' it it' hi hi' hne => ?_, fun b it it' hb hit hit' => ?_⟩, ?_⟩
    · rintro ⟨hwrite, a, ha, ha'⟩
      obtain rfl : op = .write := hwrite.elim id id
      exact pairwise_at DeviceApart.symm hapart hi hi' hne a ⟨ha, ha'⟩
    · exact h.apart (h.running ht) hat hb (hnot b) hit hit'
    · cases op with
      | read => exact hapart
      | write => trivial
  obtain ⟨κ', hm, hlin⟩ := linear_step hg h.linear hcalm hseparate hs fun b hr => by cases hr.1
  have htracks := h.linear.quiet.tracks
  have hsame : ∀ b, (S.context.batch b).caller.Live → callsAfter S.context calls (.submit op items memory) b = calls b :=
    fun b hb => callsAfter_live htracks hb
  have hnew : callsAfter S.context calls (.submit op items memory) S.context.batches = ⟨op, items, memory⟩ :=
    Function.update_self ..
  have hfresh := htracks.tidy.fresh S.context.batches (Nat.le_refl _)
  have hkept : ∀ b, (S.context.batch b).caller.Live → (context.batch b).caller.Live := fun b hb =>
    live_kept h.linear hm hlin.quiet.tracks hs hb fun hr => by cases hr.1
  have hlive : (context.batch S.context.batches).caller.Live := by
    simp only [step] at hs
    split at hs
    · cases hs
      obtain ⟨n, m, heq⟩ | ⟨-, -, -, -, -, n, m, heq⟩ := submitBatch_cases e S.context op items memory
      · exact absurd (by rw [heq]) hadmitted
      · rw [heq]
        simp [CallerPc.Live]
    · cases hs
  have hother : ∀ {u}, S.Waits u S.context.batches → False := by
    rintro u ⟨j, bufs, rest, hu⟩
    exact (h.inside u j _ bufs rest hu).live.1 hfresh
  refine ⟨κ', _, ⟨⟨γ, hf⟩, hlin, h.shared, ?_, h.done, fun u j' b bufs' rest' hu => ?_, fun b hb => ?_,
    fun u u' b hu hu' => ?_⟩⟩
  · rw [h.tasks]
    ext1 u
    by_cases hut : u = t
    · subst hut
      simp [State.put, ht, Worker.task, hnew, ← hat.prog]
    · simp only [Function.comp, State.put, Function.update_of_ne hut]
      cases hw : S.workers u with
      | none => rfl
      | some w =>
        refine congrArg some (task_same fun b bufs' rest' hp => (hsame b ?_).symm)
        exact (h.inside u w.job b bufs' rest' (by rw [hw, ← hp])).live
  · by_cases hut : u = t
    · subst hut
      obtain ⟨rfl, rfl, rfl, rfl⟩ : j = j' ∧ S.context.batches = b ∧ bufs = bufs' ∧ rest = rest' := by
        simpa [State.put] using hu
      rw [hnew]
      exact ⟨hlive, hmemory, hat.nonempty, hat.ok, hat.fits⟩
    · have hin := h.inside u j' b bufs' rest' (by simpa [State.put, hut] using hu)
      rw [hsame b hin.live]
      exact { hin with live := hkept b hin.live }
  · rcases step_live htracks hs hb with hb | ⟨habsent, -⟩
    · obtain ⟨u, hu⟩ := h.served b hb
      have hut : u ≠ t := by
        rintro rfl
        exact hnot b hu
      exact ⟨u, (waits_put_other hut).2 hu⟩
    · obtain ⟨rfl, -⟩ := submit_serving hlin.quiet.tracks hseparate hs habsent hb
      exact ⟨t, waits_put_self.2 ⟨j, bufs, rest, rfl⟩⟩
  · by_cases hut : u = t <;> by_cases hut' : u' = t
    · exact hut.trans hut'.symm
    · subst hut
      obtain ⟨j1, bufs1, rest1, hw⟩ := waits_put_self.1 hu
      obtain ⟨-, rfl, -, -⟩ : j = j1 ∧ S.context.batches = b ∧ bufs = bufs1 ∧ rest = rest1 := by simpa using hw
      exact (hother ((waits_put_other hut').1 hu')).elim
    · subst hut'
      obtain ⟨j1, bufs1, rest1, hw⟩ := waits_put_self.1 hu'
      obtain ⟨-, rfl, -, -⟩ : j = j1 ∧ S.context.batches = b ∧ bufs = bufs1 ∧ rest = rest1 := by simpa using hw
      exact (hother ((waits_put_other hut).1 hu)).elim
    · exact h.once u u' b ((waits_put_other hut).1 hu) ((waits_put_other hut').1 hu')

/-- The buffers a call leaves are those of its memory. -/
theorem refill_eq {bufs bufs' : List Bytes} {memory : Nat → Nat → UInt8} (hb : Backs bufs' memory)
    (hlen : bufs'.length = bufs.length) (hlens : ∀ k, (bufs'.getD k []).length = (bufs.getD k []).length) :
    bufs' = refill bufs memory := by
  refine List.ext_getElem (by simp [refill, hlen]) fun k hk hk' => List.ext_getElem ?_ fun i hi hi' => ?_
  · have := hlens k
    simp only [List.getD_eq_getElem?_getD, List.getElem?_eq_getElem hk,
      List.getElem?_eq_getElem (hlen ▸ hk), Option.getD_some] at this
    simpa [refill] using this
  · have := hb k i bufs'[k][i] (by simp [List.getD_eq_getElem?_getD, hk, hi])
    simpa [refill] using this

/-- A call returns, and its thread goes on: the pool executes the batch here. -/
theorem refines_returns {hg : e.geometry.Valid} (h : Refines hg device S pool κ D calls) (hcalm : S.context.Calm)
    {j : Call} {bufs : List Bytes} {rest : Except Exn (List IoResult × List Bytes) → P Ret} {context : Sys}
    (ht : S.workers t = some ⟨j, .waiting b bufs rest⟩) (hb : (S.context.batch b).caller = .returning)
    (hs : step e S.context (.caller b .next) = some context) :
    ∃ pool' κ' D', WholeStep e.geometry pool pool' ∧
      Refines hg device ({ S with context }.put t
        (some ⟨j, .running (rest (.ok ((S.context.batch b).results, refill bufs (S.context.batch b).memory)))⟩))
        pool' κ' D' calls := by
  have hin := h.inside t j b bufs rest ht
  obtain ⟨htask, hat⟩ := h.waiting ht
  obtain ⟨hserves, κ', hm, hlin⟩ := linear_return hg h.linear hcalm hb hs
  obtain ⟨choose, n, bufs', hrun, hback, hlen, hlens⟩ := hserves t S.shared bufs hin.backs hin.fits
  rw [← h.shared] at hrun
  have hexec : (batchDevice e.geometry).exec = (connector e.geometry).exec := rfl
  obtain ⟨as, has⟩ := Pool.run_handle hexec hrun htask
  obtain rfl := refill_eq hback hlen hlens
  obtain ⟨γ, hf⟩ := h.followed
  have hnew : ∀ (p : P Ret) (j' : Call) (b' : Nat) (bufs' : List Bytes)
      (rest' : Except Exn (List IoResult × List Bytes) → P Ret),
      some (Worker.mk j (.running p)) ≠ some ⟨j', .waiting b' bufs' rest'⟩ := by simp
  have hmine : ∀ {u}, S.Waits u b → u = t := fun hu => h.once _ _ _ hu ⟨j, bufs, rest, ht⟩
  have hgone : (context.batch b).caller = .returned := by
    simp only [step, callerStep, hb, Option.some.injEq] at hs
    simp [← hs, Sys.setBatch]
  have hkept : ∀ b', b' ≠ b → (S.context.batch b').caller.Live → (context.batch b').caller.Live := fun b' hne hb' => by
    refine live_kept h.linear hm hlin.quiet.tracks hs hb' fun hr => ?_
    simp only [Returns, Action.caller.injEq, and_true] at hr
    exact hne hr.1.symm
  obtain ⟨γ', hf', -⟩ := run_followed hf has
  refine ⟨_, κ', _, .batch htask hat hrun, ⟨γ', hf'⟩, hlin, rfl, ?_, h.done, fun u j' b' bufs' rest' hu => ?_,
    fun b' hb' => ?_, fun u u' b' hu hu' => ?_⟩
  · rw [h.tasks]
    exact (Function.comp_update (Option.map (Worker.task e.geometry calls)) S.workers t
      (some ⟨j, .running (rest (.ok ((S.context.batch b).results, refill bufs (S.context.batch b).memory)))⟩)).symm
  · obtain ⟨hut, hwaits⟩ := (waits_put (hnew _)).1 ⟨j', bufs', rest', hu⟩
    have hu : S.workers u = some ⟨j', .waiting b' bufs' rest'⟩ := by simpa [State.put, hut] using hu
    have hin' := h.inside u j' b' bufs' rest' hu
    have hne : b' ≠ b := by
      rintro rfl
      exact hut (hmine hwaits)
    exact { hin' with live := hkept b' hne hin'.live }
  · rcases step_live h.linear.quiet.tracks hs hb' with hlive | ⟨-, op, items, memory, ha⟩
    · obtain ⟨u, hu⟩ := h.served b' hlive
      have hut : u ≠ t := by
        rintro rfl
        obtain ⟨j', bufs', rest', hu⟩ := hu
        obtain ⟨-, rfl, -⟩ : j = j' ∧ b = b' ∧ bufs = bufs' ∧ rest = rest' := by simpa [ht] using hu
        exact hb'.2 hgone
      exact ⟨u, (waits_put (hnew _)).2 ⟨hut, hu⟩⟩
    · cases ha
  · exact h.once u u' b' ((waits_put (hnew _)).1 hu).2 ((waits_put (hnew _)).1 hu').2

/-! ## Runs -/

/-- **A step of the system** is at most one of the operations over a device that executes a batch at one moment. -/
theorem refines_step {hg : e.geometry.Valid} (h : Refines hg device S pool κ D calls) (hcalm : S.context.Calm)
    (hstep : Step e S S') : ∃ pool' κ' D' calls', Relation.ReflTransGen (WholeStep e.geometry) pool pool' ∧
      Refines hg device S' pool' κ' D' calls' := by
  cases hstep with
  | start t j hidle hnew =>
    have htask : pool.tasks t = none := by simp [h.tasks, hidle]
    have hrun : pool.run (connector e.geometry) [.start t j] = some ⟨{ S.shared with dev := D },
        Function.update pool.tasks t (some ⟨j, body e.geometry j⟩), S.done⟩ := by
      have hnames : ∀ d ∈ pool.done, d.1 ≠ t := h.done ▸ hnew
      simp only [Pool.run, Pool.act, htask, Option.isNone_none, true_and, if_pos hnames, Option.bind_some]
      rw [← h.shared, ← h.done]
      rfl
    refine ⟨_, κ, D, calls, .single (.act (fun _ _ _ _ _ hx => by cases hx) (run_single_act hrun)),
      h.advance (w := some ⟨j, .running (body e.geometry j)⟩) (fun b hw => ?_) (by simp) hrun⟩
    obtain ⟨_, _, _, hw⟩ := hw
    simp [hidle] at hw
  | @command t j c k ch r s ht hc he =>
    have hrun : pool.run (connector e.geometry) [.step t ch] = some ⟨{ s with dev := D },
        Function.update pool.tasks t (some ⟨j, k r⟩), S.done⟩ := by
      have hexec : (connector e.geometry).exec t c ch pool.shared = some (r, { s with dev := D }) := by
        rw [h.shared]
        exact exec_dev hc he
      simp only [Pool.run, Pool.act, h.running ht, hexec, Option.bind_some]
      rw [← h.done]
    have hwhole : WholeStep e.geometry pool
        ⟨{ s with dev := D }, Function.update pool.tasks t (some ⟨j, k r⟩), S.done⟩ := by
      refine .act (fun t' ch' j' c' k' hx htask => ?_) (run_single_act hrun)
      cases hx
      cases (h.running ht).symm.trans htask
      exact hc
    exact ⟨_, κ, D, calls, .single hwhole,
      h.advance (w := some ⟨j, .running (k r)⟩) (not_waits_running ht) (by simp) hrun⟩
  | submit ht hat hmemory hs hadmitted =>
    obtain ⟨κ', calls', h'⟩ := refines_submit h hcalm ht hat hmemory hs hadmitted
    exact ⟨pool, κ', D, calls', .refl, h'⟩
  | @refused t j p op items bufs rest memory context ht hat hs hrefused =>
    obtain ⟨k, -, rfl, herror, -⟩ := hat.opened
    have hsame : context = S.context := by
      simp only [step] at hs
      split at hs
      · cases hs
        exact submit_refused hat.ok hrefused
      · cases hs
    subst hsame
    have hrun : pool.run (connector e.geometry) [.step t { refusal := some (notAvailable S.context.ctx) }] =
        some ⟨{ S.shared with dev := D }, Function.update pool.tasks t
          (some ⟨j, rest (.error ⟨.runtimeError, notAvailable S.context.ctx⟩)⟩), S.done⟩ := by
      simp only [Pool.run, Pool.act, h.running ht, connector, exec, Option.bind_some, herror]
      rw [← h.shared, ← h.done]
    have hwhole := WholeStep.batch (h.running ht) hat
      (refused_run hat.nonempty hat.ok t (notAvailable S.context.ctx) pool.shared)
    rw [h.shared, h.done] at hwhole
    exact ⟨_, κ, D, calls, .single hwhole,
      h.advance (w := some ⟨j, .running _⟩) (not_waits_running ht) (by simp) hrun⟩
  | context hs hsubmit hreturn =>
    obtain ⟨κ', h'⟩ := refines_context h hcalm hs hsubmit hreturn
    exact ⟨pool, κ', D, calls, .refl, h'⟩
  | returns ht hb hs =>
    obtain ⟨pool', κ', D', hwhole, h'⟩ := refines_returns h hcalm ht hb hs
    exact ⟨pool', κ', D', calls, .single hwhole, h'⟩
  | @finish t j p o ht ho =>
    have hrun : pool.run (connector e.geometry) [.finish t] = some ⟨{ S.shared with dev := D },
        Function.update pool.tasks t none, S.done ++ [(t, j, o)]⟩ := by
      simp only [Pool.run, Pool.act, h.running ht, ho, Option.bind_some]
      rw [← h.shared, ← h.done]
    exact ⟨_, κ, D, calls, .single (.act (fun _ _ _ _ _ hx => by cases hx) (run_single_act hrun)),
      h.advance (w := none) (not_waits_running ht) (by simp) hrun⟩

theorem step_context (h : Step e S S') : S'.context = S.context ∨ ∃ a, step e S.context a = some S'.context := by
  cases h with
  | submit ht hat hmemory hs hadmitted => exact .inr ⟨_, hs⟩
  | refused ht hat hs hrefused => exact .inr ⟨_, hs⟩
  | context hs hsubmit hreturn => exact .inr ⟨_, hs⟩
  | returns ht hb hs => exact .inr ⟨_, hs⟩
  | _ => exact .inl rfl

theorem init_refines (hg : e.geometry.Valid) {a : PageExtentAllocator}
    (ha : PageExtentAllocator.new e.geometry.pageCount = .ok a) (device : Nat → UInt8) :
    Refines hg device (State.init a device) (Pool.init (Shared.init a device)) (Core.init device) device
      fun _ => ⟨.read, [], fun _ _ => 0⟩ where
  followed := ⟨_, init_followed hg ha device⟩
  linear := init_linear device _
  shared := rfl
  tasks := rfl
  done := rfl
  inside t j b bufs rest ht := by simp [State.init] at ht
  served b hb := absurd rfl hb.1
  once t u b ht := by
    obtain ⟨_, _, _, ht⟩ := ht
    simp [State.init] at ht

/-- A shutdown that has started has started for good. -/
theorem later_calm (hcycle : S.context.cycle.Calm) (hlater : Relation.ReflTransGen (Step e) S S') :
    S'.context.cycle.Calm ∧
      (S'.context.ctx.shutdownStarted = false → S.context.ctx.shutdownStarted = false) := by
  induction hlater with
  | refl => exact ⟨hcycle, id⟩
  | tail _ hstep ih =>
    rcases step_context hstep with hsame | ⟨a, hs⟩
    · rwa [hsame]
    · obtain ⟨hbefore, hcycle'⟩ := turn_calm ih.1 (step_turn hs)
      exact ⟨hcycle', ih.2 ∘ hbefore⟩

/-- A run whose last state is before the teardown. -/
theorem calm_before {Ss : List State} (hcycle : S.context.cycle.Calm) (hchain : (S :: Ss).IsChain (Step e))
    (hcalm : (Ss.getLastD S).context.ctx.shutdownStarted = false) :
    ∀ T ∈ S :: Ss, T.context.ctx.shutdownStarted = false := by
  induction Ss generalizing S with
  | nil => simpa using hcalm
  | cons T Ss ih =>
    obtain ⟨hstep, hchain⟩ := List.isChain_cons_cons.1 hchain
    obtain ⟨hcycle', hbefore⟩ := later_calm hcycle (.single hstep)
    have hrest := ih hcycle' hchain (List.getLastD_cons .. ▸ hcalm)
    exact List.forall_mem_cons.2 ⟨hbefore (hrest T List.mem_cons_self), hrest⟩

/-- A run that goes on from a state with a pool, before the teardown. -/
theorem later_refines {hg : e.geometry.Valid} (h : Refines hg device S pool κ D calls) (hcycle : S.context.cycle.Calm)
    (hlater : Relation.ReflTransGen (Step e) S S') (hcalm : S'.context.ctx.shutdownStarted = false) :
    ∃ pool' κ' D' calls', Relation.ReflTransGen (WholeStep e.geometry) pool pool' ∧
      Refines hg device S' pool' κ' D' calls' := by
  induction hlater with
  | refl => exact ⟨pool, κ, D, calls, .refl, h⟩
  | @tail S1 S2 hmid hstep ih =>
    obtain ⟨hcycle1, -⟩ := later_calm hcycle hmid
    obtain ⟨-, hbefore⟩ := later_calm hcycle1 (.single hstep)
    obtain ⟨pool1, κ1, D1, calls1, hrun, hrefines⟩ := ih (hbefore hcalm)
    obtain ⟨pool2, κ2, D2, calls2, hrun', hrefines'⟩ :=
      refines_step hrefines (fun w f hf => hcycle1 (hbefore hcalm) w f (stack_agenda hf)) hstep
    exact ⟨pool2, κ2, D2, calls2, hrun.trans hrun', hrefines'⟩

/-- Every run before the teardown has a pool that stands for it. -/
theorem reaches_refines (hg : e.geometry.Valid) {a : PageExtentAllocator}
    (ha : PageExtentAllocator.new e.geometry.pageCount = .ok a) (h : Reaches e a device S)
    (hcalm : S.context.ctx.shutdownStarted = false) :
    ∃ pool κ D calls, Relation.ReflTransGen (WholeStep e.geometry) (Pool.init (Shared.init a device)) pool ∧
      Refines hg device S pool κ D calls :=
  later_refines (init_refines hg ha device) (init_calm device) h hcalm

/-- A thread whose next command is the first of a batch is at a call. -/
theorem Refines.at_batch {hg : e.geometry.Valid} (h : Refines hg device S pool κ D calls) {j : Call}
    {k : Except Exn Unit → P Ret} (ht : S.workers t = some ⟨j, .running (.call .enqueue k)⟩) :
    ∃ op items bufs rest, AtBatch e.geometry (.call .enqueue k) op items bufs rest ∧ ItemsApart op items := by
  obtain ⟨γ, hf⟩ := h.followed
  exact (hf.along t j _ (h.running ht)).1 rfl

/-! ## A run: a set waits in the context -/

/-- What the threads do outside the context, as a pool does it. -/
def act (e : Env) (S : State) : Act Call Choice → Option State
  | .start t j =>
    if (S.workers t).isNone ∧ ∀ d ∈ S.done, d.1 ≠ t then some (S.put t (some ⟨j, .running (body e.geometry j)⟩)) else none
  | .step t ch =>
    match S.workers t with
    | some ⟨j, .running (.call c k)⟩ =>
      if transfers c then none
      else (exec e.geometry t c ch S.shared).map fun (r, s) => { S with shared := s }.put t (some ⟨j, .running (k r)⟩)
    | _ => none
  | .finish t =>
    match S.workers t with
    | some ⟨j, .running p⟩ => p.result?.map fun o => { S with done := S.done ++ [(t, j, o)] }.put t none
    | _ => none

theorem act_step {x : Act Call Choice} (h : act e S x = some S') : Step e S S' ∧ S'.context = S.context := by
  cases x with
  | start t j =>
    simp only [act, Option.isNone_iff_eq_none] at h
    split at h
    · rename_i hnew
      cases h
      exact ⟨.start t j hnew.1 hnew.2, rfl⟩
    · cases h
  | step t ch =>
    simp only [act] at h
    split at h
    · rename_i ht
      split at h
      · cases h
      · rename_i hc
        obtain ⟨⟨r, s⟩, he, rfl⟩ := Option.map_eq_some_iff.1 h
        exact ⟨.command ht (by simpa using hc) he, rfl⟩
    · cases h
  | finish t =>
    simp only [act] at h
    split at h
    · rename_i ht
      obtain ⟨o, ho, rfl⟩ := Option.map_eq_some_iff.1 h
      exact ⟨.finish ht ho, rfl⟩
    · cases h

theorem acts_reach {xs : List (Act Call Choice)} (h : runFrom (act e) S xs = some S') :
    Relation.ReflTransGen (Step e) S S' ∧ S'.context = S.context := by
  induction xs generalizing S with
  | nil =>
    cases h
    exact ⟨.refl, rfl⟩
  | cons x xs ih =>
    obtain ⟨s1, h1, h2⟩ := runFrom_cons h
    obtain ⟨hstep, hsame⟩ := act_step h1
    obtain ⟨hrest, hrest'⟩ := ih h2
    exact ⟨.head hstep hrest, hrest'.trans hsame⟩

/-- Reactors and the owner, while nobody calls. -/
theorem context_reaches {as : List Action} {context : Sys}
    (hplain : ∀ a ∈ as, (∀ op items memory, a ≠ .submit op items memory) ∧ ∀ b c, a ≠ .caller b c)
    (h : runFrom (step e) S.context as = some context) : Relation.ReflTransGen (Step e) S { S with context } := by
  induction as generalizing S with
  | nil =>
    cases h
    exact .refl
  | cons a as ih =>
    obtain ⟨s1, h1, h2⟩ := runFrom_cons h
    obtain ⟨⟨hsubmit, hcaller⟩, hplain⟩ := List.forall_mem_cons.1 hplain
    exact .head (.context h1 hsubmit fun b hr => hcaller b _ hr.1) (ih (S := { S with context := s1 }) hplain h2)

/-- A thread at the first command of a batch enters a context that is ready, whatever else is under way. -/
theorem submit_reaches (hg : e.geometry.Valid) {a : PageExtentAllocator}
    (ha : PageExtentAllocator.new e.geometry.pageCount = .ok a) (h : Reaches e a device S)
    (hcalm : S.context.ctx.shutdownStarted = false) {j : Call} {k : Except Exn Unit → P Ret} {k' : Nat → P Ret} {n : Nat}
    (ht : S.workers t = some ⟨j, .running (.call .enqueue k)⟩) (hpick : k (.ok ()) = .call (.pick n) k') (hn : n < 2 ^ 64)
    (hready : ¬ (S.context.ctx.closed ∨ S.context.ctx.shutdownRequested ∨ ¬ S.context.ctx.initializationSucceeded ∨
      S.context.ctx.ioWorkers = 0)) :
    ∃ S', Reaches e a device S' ∧ S'.context.ctx.shutdownStarted = false ∧ S'.done = S.done ∧
      S'.Waits t S.context.batches := by
  obtain ⟨pool, κ, D, calls, -, hrefines⟩ := reaches_refines hg ha h hcalm
  obtain ⟨op, items, bufs, rest, hat, -⟩ := hrefines.at_batch ht
  have hlength : items.length = n := by
    obtain ⟨k1, k1', hk, -, hpick', -⟩ := hat.opened
    cases hk
    cases hpick.symm.trans hpick'
    rfl
  have hadmitted : (submitBatch e S.context op items fun k j => (bufs.getD k []).getD j 0).batches =
      S.context.batches + 1 := submit_admitted hat.nonempty hat.ok hready
  have hs : step e S.context (.submit op items fun k j => (bufs.getD k []).getD j 0) =
      some (submitBatch e S.context op items fun k j => (bufs.getD k []).getD j 0) := by
    rw [step, if_pos (by omega)]
  refine ⟨_, h.tail (.submit ht hat (fun k j x hx => ?_) hs (by omega)), ?_, rfl, waits_put_self.2 ⟨_, _, _, rfl⟩⟩
  · rw [List.getD, hx]
    rfl
  · obtain ⟨n, m, heq⟩ | ⟨-, -, -, -, -, n, m, heq⟩ := submitBatch_cases e S.context op items
      fun k j => (bufs.getD k []).getD j 0
    · rw [put_context, heq]
      exact hcalm
    · rw [put_context, heq]
      exact hcalm

/-- Thread 1 asks for a key that thread 0 then sets, up to its call of `submit_batch_and_wait`. -/
def beforeSubmit : List (Act Call Choice) :=
  .start 1 (.exists' [7]) :: List.replicate 6 (.step 1 {}) ++ .finish 1 :: .start 0 (.set [7] [1]) ::
    List.replicate 8 (.step 0 {})

/-- Thread 0 is at the first command of a batch of one item. -/
def AtOneItem (S : State) : Bool :=
  match S.workers 0 with
  | some ⟨_, .running (.call .enqueue k)⟩ =>
    match k (.ok ()) with
    | .call (.pick n) _ => n == 1
    | _ => false
  | _ => false

theorem set_waits : ∃ S, Reaches smallEnv ⟨[⟨0, 4⟩], 4, 4⟩ Nat.toUInt8 S ∧ S.context.ctx.shutdownStarted = false ∧
    S.done = [(1, .exists' [7], .ok (.bool false))] ∧ S.Waits 0 0 ∧ (S.context.batch 0).caller.Live := by
  have hacts : (runFrom (act smallEnv) (State.init ⟨[⟨0, 4⟩], 4, 4⟩ Nat.toUInt8) beforeSubmit).any (fun S =>
    decide (S.done = [(1, .exists' [7], .ok (.bool false))]) && AtOneItem S) = true := by decide +kernel
  have hopen : (runFrom (step smallEnv) (Sys.init Nat.toUInt8) openRun).any (fun s =>
    decide (s.batches = 0 ∧ s.ctx.shutdownStarted = false ∧ ¬ (s.ctx.closed ∨ s.ctx.shutdownRequested ∨
      ¬ s.ctx.initializationSucceeded ∨ s.ctx.ioWorkers = 0))) = true := by decide +kernel
  obtain ⟨S, hS, htest⟩ := (Option.any_eq_true _ _).1 hacts
  obtain ⟨context, hcontext, hready⟩ := (Option.any_eq_true _ _).1 hopen
  obtain ⟨hdone, hitem⟩ : S.done = [(1, .exists' [7], .ok (.bool false))] ∧ AtOneItem S = true := by simpa using htest
  obtain ⟨hnone, hcalm, hready⟩ := of_decide_eq_true hready
  obtain ⟨hreach, hsame⟩ := acts_reach hS
  have hopened := hreach.trans (context_reaches (by simp [openRun])
    ((congrArg (runFrom (step smallEnv) · openRun) hsame).trans hcontext))
  obtain ⟨j, k, k', ht, hpick⟩ : ∃ j k k', S.workers 0 = some ⟨j, .running (.call .enqueue k)⟩ ∧
      k (.ok ()) = .call (.pick 1) k' := by
    simp only [AtOneItem] at hitem
    split at hitem
    · rename_i hw
      split at hitem
      · rename_i hk
        obtain rfl := eq_of_beq hitem
        exact ⟨_, _, _, hw, hk⟩
      · cases hitem
    · cases hitem
  have hg : smallEnv.geometry.Valid := buildStorageGeometry_valid (show buildStorageGeometry 4 2 1 1 4 0 1 = _ from rfl)
  obtain ⟨S', hreach', hcalm', hdone', hwaits⟩ := submit_reaches hg rfl hopened hcalm ht hpick (by decide) hready
  rw [hnone] at hwaits
  obtain ⟨pool, κ, D, calls, -, h⟩ := reaches_refines hg rfl hreach' hcalm'
  obtain ⟨j, bufs, rest, hw⟩ := id hwaits
  exact ⟨S', hreach', hcalm', hdone'.trans hdone, hwaits, (h.inside 0 j 0 bufs rest hw).live⟩

/-! ## Results -/

variable {nb bs wu ba seg mx bc : Nat} {a : PageExtentAllocator}

/-- **The connector over its context refines the connector**: every run before a shutdown has started, for any number
of threads, reactors and DMA buffers, any completions and retries and any order of steps, is a run of the operations
on a device that executes each batch at one moment. The same operations have returned with the same outcomes, the
same are running, keys, entries, mutexes and free pages are the same, and so is the device but for the ranges of the
writes being served. -/
theorem stack_refines
    (hgeo : buildStorageGeometry nb bs wu ba seg mx bc = .ok e.geometry)
    (ha : PageExtentAllocator.new e.geometry.pageCount = .ok a) (hrun : Reaches e a device S)
    (hcalm : S.context.ctx.shutdownStarted = false) :
    ∃ pool, Relation.ReflTransGen (WholeStep e.geometry) (Pool.init (Shared.init a device)) pool ∧
    pool.done = S.done ∧ (∀ t, (pool.tasks t).map Task.job = (S.workers t).map Worker.job) ∧
    pool.shared = { S.shared with dev := pool.shared.dev } ∧ Agrees pool.shared.dev S.context := by
  obtain ⟨pool, κ, D, calls, hpool, h⟩ := reaches_refines (buildStorageGeometry_valid hgeo) ha hrun hcalm
  refine ⟨pool, hpool, h.done, fun t => ?_, by rw [h.shared], ?_⟩
  · rw [h.tasks]
    cases hw : S.workers t <;> simp [hw, Worker.task]
  · rw [h.shared]
    exact h.linear.agrees

/-- The waiting set is still at its call in the pool, and the device is that of the context but for the set's page. -/
theorem stack_refines_set : ∃ (S : State) (pool : Pool Shared Call Cmd Answer Exn Ret), S.Waits 0 0 ∧
    Relation.ReflTransGen (WholeStep smallEnv.geometry) (Pool.init (Shared.init ⟨[⟨0, 4⟩], 4, 4⟩ Nat.toUInt8)) pool ∧
    pool.done = [(1, .exists' [7], .ok (.bool false))] ∧ (pool.tasks 0).isSome ∧ Agrees pool.shared.dev S.context := by
  obtain ⟨S, hreach, hcalm, hdone, hwaits, -⟩ := set_waits
  have hgeo : buildStorageGeometry 4 2 1 1 4 0 1 = .ok smallEnv.geometry := rfl
  obtain ⟨pool, hpool, hdone', htasks, -, hagrees⟩ := stack_refines hgeo rfl hreach hcalm
  refine ⟨S, pool, hwaits, hpool, hdone'.trans hdone, ?_, hagrees⟩
  obtain ⟨j, bufs, rest, hw⟩ := hwaits
  have htask := htasks 0
  rw [hw] at htask
  obtain ⟨_, hsome, -⟩ := Option.map_eq_some_iff.1 htask
  simp [hsome]

/-- `order` puts the operations of the system in sequence: every one that has returned, with its outcome, and some of
those in progress. -/
structure InSequence (g : StorageGeometry) (S : State) (order : List (Nat × Call × Outcome)) (m : KeyMap) : Prop where
  once : (order.map Prod.fst).Nodup
  returned : ∀ x ∈ S.done, x ∈ order
  only : ∀ x ∈ order, x ∈ S.done ∨ ∃ w, S.workers x.1 = some w ∧ w.job = x.2.1
  replays : Replays (fun _ => none) order m
  /-- When nothing runs the bytes on the device are the map. -/
  stored : (∀ t, S.workers t = none) → ∀ key, storedValue g { S.shared with dev := S.context.device } key = m key

theorem Refines.in_sequence {hg : e.geometry.Valid} (h : Refines hg device S pool κ D calls) {γ : Ghost}
    (hf : Followed hg pool γ) : InSequence e.geometry S γ.log γ.map := by
  have hserial := pool_serializes hg hf.ok
  refine ⟨hserial.once, h.done ▸ hserial.returned, fun x hx => ?_, hserial.replays, fun hidle key => ?_⟩
  · rcases hserial.only x hx with hdone | ⟨p, hp⟩
    · exact .inl (h.done ▸ hdone)
    · rw [h.tasks, Function.comp_apply, Option.map_eq_some_iff] at hp
      obtain ⟨w, hw, hjob⟩ := hp
      exact .inr ⟨w, hw, congrArg Task.job hjob⟩
  · have hstored := hserial.stored (fun t => by simp [h.tasks, hidle t]) key
    -- no thread waits, so no write is being served
    have hdevice : D = S.context.device := by
      ext a
      rw [h.linear.agrees a fun b it hb => ?_]
      obtain ⟨t, j, bufs, rest, ht⟩ := h.served b hb
      simp [hidle t] at ht
    rwa [h.shared, hdevice] at hstored

/-- What is put in sequence along a run stays in its place. -/
theorem sequence_grows {hg : e.geometry.Valid} {Ss : List State} (h : Refines hg device S pool κ D calls) {γ : Ghost}
    (hf : Followed hg pool γ) (hcycle : S.context.cycle.Calm) (hchain : (S :: Ss).IsChain (Step e))
    (hcalm : ∀ T ∈ S :: Ss, T.context.ctx.shutdownStarted = false) :
    ∃ γ' : Ghost, γ.log <+: γ'.log ∧ InSequence e.geometry (Ss.getLastD S) γ'.log γ'.map ∧
      ∀ T ∈ S :: Ss, ∃ sofar m, sofar <+: γ'.log ∧ InSequence e.geometry T sofar m := by
  induction Ss generalizing S pool κ D calls γ with
  | nil =>
    refine ⟨γ, List.prefix_rfl, h.in_sequence hf, fun T hT => ?_⟩
    obtain rfl := List.mem_singleton.1 hT
    exact ⟨γ.log, γ.map, List.prefix_rfl, h.in_sequence hf⟩
  | cons T Ss ih =>
    obtain ⟨hstep, hchain⟩ := List.isChain_cons_cons.1 hchain
    obtain ⟨hstart, hcalm⟩ := List.forall_mem_cons.1 hcalm
    obtain ⟨pool1, κ1, D1, calls1, hwhole, h1⟩ :=
      refines_step h (fun w f hm => hcycle hstart w f (stack_agenda hm)) hstep
    obtain ⟨as, hrun⟩ := whole_runs hwhole
    obtain ⟨γ1, hf1, hgrows⟩ := run_followed hf hrun
    obtain ⟨γ', hgrows', hlast, hall⟩ := ih h1 hf1 (later_calm hcycle (.single hstep)).1 hchain hcalm
    have hprefix := hgrows.trans hgrows'
    refine ⟨γ', hprefix, by simpa only [List.getLastD_cons] using hlast, fun U hU => ?_⟩
    rcases List.mem_cons.1 hU with rfl | hU
    · exact ⟨γ.log, γ.map, hprefix, h.in_sequence hf⟩
    · exact hall U hU

/-- `x` stands before `y`. -/
def Precedes {α : Type} (order : List α) (x y : α) : Prop := ∃ l l', order = l ++ l' ∧ x ∈ l ∧ y ∈ l'

/-- **The whole connector is linearizable**: over the real context, the outcomes of the operations of a run, in any
interleaving, are those of the same operations one at a time against the map, in one order for the whole run; a batch
is seen whole or not at all, and no read mixes two values. At each state of the run a beginning of the order is the
sequence so far, and an operation that has returned there comes before each that has not yet started. -/
theorem stack_linearizable (hgeo : buildStorageGeometry nb bs wu ba seg mx bc = .ok e.geometry)
    (ha : PageExtentAllocator.new e.geometry.pageCount = .ok a) {Ss : List State}
    (hrun : (State.init a device :: Ss).IsChain (Step e))
    (hcalm : ∀ S ∈ State.init a device :: Ss, S.context.ctx.shutdownStarted = false) :
    ∃ order m, InSequence e.geometry (Ss.getLastD (State.init a device)) order m ∧ AllOrNone order ∧ ReadsWhole order ∧
      ∀ S ∈ State.init a device :: Ss, (∃ sofar m', sofar <+: order ∧ InSequence e.geometry S sofar m') ∧
        ∀ x ∈ S.done, ∀ y ∈ order, y ∉ S.done → S.workers y.1 = none → Precedes order x y := by
  have hg := buildStorageGeometry_valid hgeo
  obtain ⟨γ, -, hlast, hall⟩ := sequence_grows (init_refines hg ha device) (init_followed hg ha device)
    (init_calm device) hrun hcalm
  refine ⟨γ.log, γ.map, hlast, replays_allOrNone hlast.replays, replays_readsWhole hlast.replays, fun S hS => ?_⟩
  obtain ⟨sofar, m', hprefix, hseq⟩ := hall S hS
  refine ⟨⟨sofar, m', hprefix, hseq⟩, fun x hx y hy hnot hidle => ?_⟩
  obtain ⟨later, hlater⟩ := hprefix
  rw [← hlater] at hy ⊢
  refine ⟨sofar, later, rfl, hseq.returned x hx, (List.mem_append.1 hy).resolve_left fun hmem => ?_⟩
  rcases hseq.only y hmem with hdone | ⟨w, hw, -⟩
  · exact hnot hdone
  · exact absurd (hidle.symm.trans hw) (by simp)

/-- A run through the state in which the set waits: the exists has its place, where the key is not yet set. -/
theorem stack_linearizable_set : ∃ (Ss : List State) (order : List (Nat × Call × Outcome)) (m : KeyMap),
    (Ss.getLastD (State.init ⟨[⟨0, 4⟩], 4, 4⟩ Nat.toUInt8)).Waits 0 0 ∧
    InSequence smallEnv.geometry (Ss.getLastD (State.init ⟨[⟨0, 4⟩], 4, 4⟩ Nat.toUInt8)) order m ∧
    (1, .exists' [7], .ok (.bool false)) ∈ order := by
  obtain ⟨S, hreach, hcalm, hdone, hwaits, -⟩ := set_waits
  have hgeo : buildStorageGeometry 4 2 1 1 4 0 1 = .ok smallEnv.geometry := rfl
  obtain ⟨Ss, hchain, hlast⟩ := List.exists_isChain_cons_of_relationReflTransGen hreach
  have hend : Ss.getLastD (State.init ⟨[⟨0, 4⟩], 4, 4⟩ Nat.toUInt8) = S := by
    rw [← hlast, List.getLast_eq_getLastD]
  have hbefore : ∀ T ∈ State.init ⟨[⟨0, 4⟩], 4, 4⟩ Nat.toUInt8 :: Ss, T.context.ctx.shutdownStarted = false :=
    calm_before (init_calm _) hchain (hend ▸ hcalm)
  obtain ⟨order, m, hsequence, -⟩ := stack_linearizable hgeo rfl hchain hbefore
  have hmem : (1, .exists' [7], .ok (.bool false)) ∈ S.done := by simp [hdone]
  exact ⟨Ss, order, m, hend ▸ hwaits, hsequence, hsequence.returned _ (hend ▸ hmem)⟩

/-- **What the context asks of its callers holds**: an operation that is about to submit a batch submits valid items,
apart and within its buffers; each batch being served has a thread that waits for it, and no two of them share a byte
of the device that one of them writes. -/
theorem stack_batches_apart
    (hgeo : buildStorageGeometry nb bs wu ba seg mx bc = .ok e.geometry)
    (ha : PageExtentAllocator.new e.geometry.pageCount = .ok a) (hrun : Reaches e a device S)
    (hcalm : S.context.ctx.shutdownStarted = false) :
    (∀ t j k, S.workers t = some ⟨j, .running (.call .enqueue k)⟩ → ∃ op items bufs rest,
      AtBatch e.geometry (.call .enqueue k) op items bufs rest ∧ ItemsApart op items) ∧
    ∀ b, (S.context.batch b).caller.Live → (∃ t, S.Waits t b) ∧
      ItemsApart (S.context.batch b).operation (S.context.batch b).items ∧
      ∀ b', b' ≠ b → (S.context.batch b').caller.Live → ∀ it ∈ (S.context.batch b).items,
        ∀ it' ∈ (S.context.batch b').items,
          ¬ Conflict (S.context.batch b).operation (S.context.batch b').operation it it' := by
  obtain ⟨pool, κ, D, calls, hpool, h⟩ := reaches_refines (buildStorageGeometry_valid hgeo) ha hrun hcalm
  obtain ⟨γ, hf⟩ := h.followed
  refine ⟨fun t j k ht => h.at_batch ht, fun b hb => ?_⟩
  obtain ⟨t, j, bufs, rest, ht⟩ := h.served b hb
  obtain ⟨htask, hat⟩ := h.waiting ht
  have hserving := h.linear.serving b hb
  have hitems : (S.context.batch b).items = (calls b).items := h.linear.quiet.tracks.batch ▸ hserving.items
  have hop : (S.context.batch b).operation = (calls b).operation := h.linear.quiet.tracks.batch ▸ hserving.operation
  rw [hitems, hop]
  refine ⟨⟨t, j, bufs, rest, ht⟩, hf.apart htask hat, fun b' hne hb' it hit it' hit' => ?_⟩
  refine h.apart htask hat hb' ?_ hit hit'
  rintro ⟨j', bufs', rest', hw⟩
  rw [ht] at hw
  simp only [Option.some.injEq, Worker.mk.injEq, Place.waiting.injEq] at hw
  exact hne hw.2.1.symm

/-- The batch of the set is served for thread 0, its items apart. -/
theorem stack_batches_apart_set : ∃ S : State, (∃ t, S.Waits t 0) ∧ S.context.ctx.shutdownStarted = false ∧
    ItemsApart (S.context.batch 0).operation (S.context.batch 0).items := by
  obtain ⟨S, hreach, hcalm, -, -, hlive⟩ := set_waits
  have hgeo : buildStorageGeometry 4 2 1 1 4 0 1 = .ok smallEnv.geometry := rfl
  obtain ⟨hwaits, hitems, -⟩ := (stack_batches_apart hgeo rfl hreach hcalm).2 0 hlive
  exact ⟨S, hwaits, hcalm, hitems⟩

end Stack
end SpdkConnector
