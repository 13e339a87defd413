import SpdkConnector.Context.Refinement

/-!
# Exactly-once completion

What the moves keep, read at the end of a run: each request has been completed at most once, `remaining` is
the number of those that have not, and a batch returns what SPDK reported. A result is written in the step
that completes its request and in no other (`Settles`).
-/

namespace SpdkConnector
namespace SpdkBdevContext

open Interleaving

variable {e : Env} {s s' : Sys} {κ κ' : Core} {b i : Nat}

/-! ## Results are written once -/

/-- A batch once built stays, with its items. -/
theorem move_present (hm : Move e κ κ') (h : (κ.batch b).caller ≠ .absent) :
    (κ'.batch b).caller ≠ .absent ∧ (κ'.batch b).items = (κ.batch b).items ∧
    (κ'.batch b).operation = (κ.batch b).operation := by
  cases hm with
  | submit c op items memory pc req hnew _ _ hlive _ _ =>
    have hcb : b ≠ c := fun he => h (he ▸ hnew)
    simpa [Core.mark, hcb] using h
  | deliver r k =>
    simp only [Core.copy, Core.finish, Core.setBatch, Core.setPool, Core.setRequest, Core.setStage,
      Function.update_apply]
    split
    · rename_i hb
      exact ⟨hb ▸ h, by rw [hb], by rw [hb]⟩
    · exact ⟨h, rfl, rfl⟩
  | complete r success error _ =>
    simp only [Core.complete, Core.setBatch, Function.update_apply]
    split
    · rename_i hb
      exact ⟨hb ▸ h, by rw [hb], by rw [hb]⟩
    · exact ⟨h, rfl, rfl⟩
  | caller c pc hpc =>
    simp only [Core.setBatch, Function.update_apply]
    split
    · rename_i hb
      exact ⟨hpc.present, by rw [hb], by rw [hb]⟩
    · exact ⟨h, rfl, rfl⟩
  | _ => exact ⟨h, rfl, rfl⟩

theorem moves_present (hm : Moves e κ κ') (h : (κ.batch b).caller ≠ .absent) :
    (κ'.batch b).caller ≠ .absent ∧ (κ'.batch b).items = (κ.batch b).items ∧
    (κ'.batch b).operation = (κ.batch b).operation := by
  induction hm with
  | refl => exact ⟨h, rfl, rfl⟩
  | tail _ hlast ih =>
    obtain ⟨h1, h2, h3⟩ := ih
    obtain ⟨h4, h5, h6⟩ := move_present hlast h1
    exact ⟨h4, h5.trans h2, h6.trans h3⟩

theorem move_completed (hc : Consistent e κ) (hm : Move e κ κ') {r : Ref} (h : κ.stage r = .completed) :
    κ'.stage r = .completed := by
  have hturn : ∀ (r' : Ref) (st : Stage), κ.stage r' ≠ .completed →
      Function.update κ.stage r' st r = .completed := by
    intro r' st hr'
    have hne : r ≠ r' := fun he => hr' (he ▸ h)
    rwa [Function.update_of_ne hne]
  cases hm with
  | submit c op items memory pc req hnew _ _ _ _ _ =>
    obtain ⟨c', j⟩ := r
    have hcb : c' ≠ c := by
      rintro rfl
      have := (hc.absent_iff c' j).2 (by rw [hc.idle_items c' hnew]; exact Nat.zero_le j)
      rw [this] at h
      cases h
    simpa [hcb] using h
  | post rs hrs =>
    have hr : r ∉ rs := fun hr => by
      rw [hrs r hr] at h
      cases h
    simpa [hr] using h
  | accept r' k rest hr' _ _ => exact hturn r' _ (by simp [hr'])
  | transferWrite r' c n hr' _ _ => exact hturn r' _ (by simp [hr'])
  | transferRead r' c n hr' _ _ => exact hturn r' _ (by simp [hr'])
  | disturbWrite r' c noise hr' _ => exact hturn r' _ (by simp [hr'])
  | disturbRead r' c noise hr' _ => exact hturn r' _ (by simp [hr'])
  | report r' c success hr' _ => exact hturn r' _ (by simp [hr'])
  | deliver r' k hr' _ _ _ => exact hturn r' _ (by simp [hr'])
  | finish r' success success' hr' _ => exact hturn r' _ (by simp [hr'])
  | abandon r' hr' => exact hturn r' _ (by rcases hr' with hr' | hr' <;> simp [hr'])
  | complete r' success error hr' => exact hturn r' _ (by simp [hr'])
  | _ => exact h

/-- A move that changes a result completes the result's request. -/
theorem move_result (hc : Consistent e κ) (hm : Move e κ κ') (h : (κ.batch b).caller ≠ .absent)
    (hne : (κ'.batch b).results[i]? ≠ (κ.batch b).results[i]?) :
    κ.stage (b, i) ≠ .completed ∧ κ'.stage (b, i) = .completed := by
  cases hm with
  | submit c op items memory pc req hnew _ _ _ _ _ =>
    have hcb : b ≠ c := fun he => h (he ▸ hnew)
    exact absurd (by simp [hcb]) hne
  | deliver r k =>
    refine absurd ?_ hne
    simp only [Core.copy, Core.finish, Core.setBatch, Core.setPool, Core.setRequest, Core.setStage,
      Function.update_apply]
    split
    · rename_i hb
      rw [hb]
    · rfl
  | complete r success error hr =>
    obtain ⟨c, j⟩ := r
    simp only [Core.complete, Core.setBatch, Function.update_apply] at hne
    have hj : j < (κ.batch c).items.length := by
      rw [← Nat.not_le, ← hc.absent_iff, hr]
      simp
    have hindex := (hc.built c j _ (List.getElem?_eq_getElem hj)).2.1
    split at hne
    · rename_i hb
      subst hb
      rw [hindex] at hne
      have hij : i = j := by
        by_contra hij
        exact hne (by rw [List.getElem?_set_ne (Ne.symm hij)])
      subst hij
      exact ⟨by simp [hr], by simp [Core.complete]⟩
    · exact absurd rfl hne
  | caller c pc hpc =>
    refine absurd ?_ hne
    simp only [Core.setBatch, Function.update_apply]
    split
    · rename_i hb
      rw [hb]
    · rfl
  | _ => exact absurd rfl hne

theorem moves_result (hc : Consistent e κ) (hm : Moves e κ κ') (h : (κ.batch b).caller ≠ .absent) :
    (∀ r, κ.stage r = .completed → κ'.stage r = .completed) ∧
    ((κ'.batch b).results[i]? ≠ (κ.batch b).results[i]? →
      κ.stage (b, i) ≠ .completed ∧ κ'.stage (b, i) = .completed) := by
  induction hm with
  | refl => exact ⟨fun _ => id, fun hne => absurd rfl hne⟩
  | @tail κ1 κ2 hm hlast ih =>
    obtain ⟨h2, h3⟩ := ih
    have hc1 := moves_consistent hc hm
    refine ⟨fun r hr => move_completed hc1 hlast (h2 r hr), fun hne => ?_⟩
    by_cases hmid : (κ1.batch b).results[i]? = (κ.batch b).results[i]?
    · obtain ⟨h4, h5⟩ := move_result hc1 hlast (moves_present hm h).1 (hmid ▸ hne)
      exact ⟨fun hdone => h4 (h2 _ hdone), h5⟩
    · obtain ⟨h4, h5⟩ := h3 hmid
      exact ⟨h4, move_completed hc1 hlast h5⟩

/-! ## At the end of a run -/

/-- The number of requests of batch `b` that have not been completed. -/
def Sys.uncompleted (s : Sys) (b : Nat) : Nat :=
  (List.range (s.batch b).items.length).countP fun i => !(s.request (b, i)).completed

/-- The step to `s'` writes a result only where it completes the result's request. -/
def Settles (s s' : Sys) : Prop :=
  ∀ b i, (s.batch b).caller ≠ .absent → (s'.batch b).results[i]? ≠ (s.batch b).results[i]? →
    (s.request (b, i)).completed = false ∧ (s'.request (b, i)).completed = true

/-- The caller of batch `b` has what it returns: one result per item, as SPDK reported it. -/
def Answered (s : Sys) (b : Nat) : Prop :=
  (s.batch b).results.length = (s.batch b).items.length ∧
  ∀ i it, (s.batch b).items[i]? = some it →
    (s.request (b, i)).item = it ∧ ∃ x, (s.batch b).results[i]? = some x ∧
      (x.success = true ↔ (s.request (b, i)).Succeeded)

theorem completed_iff (hc : Consistent e κ) (hi : i < (κ.batch b).items.length) :
    (κ.request (b, i)).completed = true ↔ κ.stage (b, i) = .completed := by
  have hf := hc.fits (b, i)
  have hpresent : κ.stage (b, i) ≠ .absent := fun h => Nat.not_le.2 hi ((hc.absent_iff b i).1 h)
  cases hst : κ.stage (b, i) <;> rw [hst] at hf <;> simp_all [Stage.Fits]

theorem uncompleted_eq (ht : Tracks s κ) (hc : Consistent e κ) (b : Nat) :
    (s.batch b).remaining = s.uncompleted b := by
  have hr := hc.remaining b
  rw [ht.batch] at hr
  rw [hr, openCount, Sys.uncompleted]
  refine List.countP_congr fun i hi => ?_
  have hlt := List.mem_range.1 hi
  have hdone := completed_iff (i := i) hc (by rw [ht.batch]; exact hlt)
  rw [ht.request] at hdone
  have hopen : (κ.stage (b, i)).Open ↔ κ.stage (b, i) ≠ .completed := by
    cases κ.stage (b, i) <;> simp [Stage.Open]
  rw [decide_eq_true_iff, hopen, Ne, ← hdone, Bool.not_eq_true, Bool.not_eq_true']

theorem settles_step (ht : Tracks s κ) (hc : Consistent e κ) {a : Action} (h : step e s a = some s') :
    Settles s s' := by
  intro b i hb hne
  obtain ⟨κ', hm, ht', -⟩ := step_follows ht hc h
  have hc' := moves_consistent hc hm
  have hb' : (κ.batch b).caller ≠ .absent := by rw [ht.batch]; exact hb
  obtain ⟨-, hres⟩ := moves_result (i := i) hc hm hb'
  obtain ⟨h1, h2⟩ := hres (by rw [ht.batch, ht'.batch]; exact hne)
  have hlt : i < (κ.batch b).items.length := by
    rw [← (moves_present hm hb').2.1, ← Nat.not_le, ← hc'.absent_iff, h2]
    nofun
  have hdone := completed_iff (i := i) hc hlt
  have hf' := hc'.fits (b, i)
  rw [h2, ht'.request] at hf'
  rw [ht.request] at hdone
  exact ⟨by simpa using mt hdone.1 h1, hf'.1⟩

/-- **Exactly-once completion**: after every run, for any number of workers, pool sizes and interleaving,
each request has been completed at most once, `remaining` is the number of requests not completed, every
next step writes a result only where it completes that result's request, and a batch whose caller is past
its wait has one result per item, a success exactly where SPDK reported one and a read was copied. -/
theorem exactly_once {device : Nat → UInt8} {as : List Action}
    (h : runFrom (step e) (Sys.init device) as = some s) :
    (∀ b i, i < (s.batch b).items.length → (s.request (b, i)).completions ≤ 1) ∧
    (∀ b, (s.batch b).remaining = s.uncompleted b) ∧
    (∀ a s', step e s a = some s' → Settles s s') ∧
    ∀ b, (s.batch b).caller = .returning ∨ (s.batch b).caller = .returned → Answered s b := by
  have hmarks : MarksOnly (fun _ _ => True) fun _ => True := fun _ _ _ _ _ => trivial
  obtain ⟨κ, -, ht, hc, -⟩ := run_follows hmarks (guarded_true _ as) h
  refine ⟨fun b i hi => ?_, uncompleted_eq ht hc, fun a s' hs => settles_step ht hc hs, fun b hb => ⟨?_, ?_⟩⟩
  · have hf := hc.fits (b, i)
    have hpresent : κ.stage (b, i) ≠ .absent := fun hst =>
      Nat.not_le.2 hi (by rw [← ht.batch]; exact (hc.absent_iff b i).1 hst)
    rw [ht.request] at hf
    cases hst : κ.stage (b, i) with
    | absent => exact absurd hst hpresent
    | completed =>
      rw [hst] at hf
      exact hf.2.1.le
    | _ =>
      rw [hst] at hf
      rw [hf.2.1]
      exact Nat.zero_le 1
  · rw [← ht.batch]
    exact hc.results_length b
  · intro i it hi
    have hlt := (List.getElem?_eq_some_iff.1 hi).1
    have hzero := hc.returned b (by rw [ht.batch]; exact hb)
    rw [hc.remaining b] at hzero
    have hdone : κ.stage (b, i) = .completed := by
      have hclosed := openCount_zero hzero i (by rw [ht.batch]; exact hlt)
      cases hst : κ.stage (b, i) <;> simp_all [Stage.Open]
    have hbuilt := (hc.built b i it (by rw [ht.batch]; exact hi)).1
    obtain ⟨x, hx, hsuccess⟩ := hc.result b i hdone
    rw [ht.request] at hbuilt hsuccess
    rw [ht.batch] at hx
    exact ⟨hbuilt, x, hx, hsuccess⟩

/-- Once a batch call is past its wait, the bdev has no command of it. -/
theorem nothing_in_flight {device : Nat → UInt8} {as : List Action}
    (h : runFrom (step e) (Sys.init device) as = some s)
    (hb : (s.batch b).caller = .returning ∨ (s.batch b).caller = .returned) {w : Nat} {c : Command}
    (hf : c ∈ (s.reactor w).inFlight) : c.request.1 ≠ b := by
  have hmarks : MarksOnly (fun _ _ => True) fun _ => True := fun _ _ _ _ _ => trivial
  obtain ⟨κ, -, ht, hc, -⟩ := run_follows hmarks (guarded_true _ as) h
  have hst := (ht.entry (entries_command hf)).1
  rintro rfl
  have hlt : c.request.2 < (κ.batch c.request.1).items.length := by
    rw [← Nat.not_le, ← hc.absent_iff, hst]
    nofun
  have hzero := hc.returned c.request.1 (by rw [ht.batch]; exact hb)
  rw [hc.remaining c.request.1] at hzero
  have hclosed := openCount_zero hzero c.request.2 hlt
  rw [hst] at hclosed
  exact hclosed trivial

/-- A bdev of four pages of two bytes, one worker, one buffer. -/
def smallEnv : Env where
  geometry := ⟨8, 8, 2, 4, 4, 0, 2, 1, 1, 1⟩
  ioThreadCount := 1
  bdevName := "bdev"
  strerror := fun _ => ""

/-- Construction succeeds. -/
def openRun : List Action :=
  [.reactor 0 .message, .reactor 0 (.code 0), .reactor 0 .next, .reactor 0 .next, .reactor 0 (.setUp true true 1),
    .reactor 0 .next, .reactor 0 .next, .owner .next]

/-- Batch `b` is submitted, and its dispatch posted to the worker. -/
def submitRun (b : Nat) (operation : Operation) (items : List IoBatchItem) : List Action :=
  [.submit operation items fun _ j => j.toUInt8, .caller b .next, .caller b (.code 0), .caller b .next,
    .caller b .next]

/-- The bdev serves the command in flight, and its request is completed. -/
def serveRun : List Action :=
  [.transfer 0 0 2, .reactor 0 (.completion 0 true), .reactor 0 .next, .reactor 0 .next, .reactor 0 .next,
    .reactor 0 .next, .reactor 0 .next]

/-- Two pages are read while a third is written, and all wait for the one buffer: the first page is served, then
the second and the write. -/
def pairServed : List Action :=
  openRun ++ submitRun 0 .read [⟨some ⟨0, 0⟩, 2, 0, 2⟩, ⟨some ⟨0, 2⟩, 1, 2, 2⟩] ++
  submitRun 1 .write [⟨some ⟨0, 5⟩, 1, 4, 2⟩] ++
  [.reactor 0 .message, .reactor 0 .next, .reactor 0 (.submit 0 0 0), .reactor 0 .next, .reactor 0 (.submit 0 0 0),
    .reactor 0 .next, .reactor 0 .message, .reactor 0 .next, .reactor 0 (.submit 0 0 0), .reactor 0 .next] ++
  serveRun ++ [.reactor 0 (.submit 0 0 0), .reactor 0 .next] ++
  serveRun ++ [.reactor 0 .next, .reactor 0 (.submit 0 0 0), .reactor 0 .next] ++ serveRun ++ [.reactor 0 .next]

/-- Both calls return. -/
def pairRun : List Action :=
  pairServed ++ [.caller 1 .next, .caller 1 .next, .caller 0 .next, .caller 0 .next]

theorem pairRun_idle {s : Sys} (hrun : runFrom (step smallEnv) (Sys.init Nat.toUInt8) pairRun = some s) (b : Nat) :
    ¬ (s.batch b).caller.Live := by
  have hend : (runFrom (step smallEnv) (Sys.init Nat.toUInt8) pairRun).all (fun s =>
      decide (s.batches = 2 ∧ (s.batch 0).caller = .returned ∧ (s.batch 1).caller = .returned)) = true := by
    decide +kernel
  rw [hrun, Option.all_some, decide_eq_true_eq] at hend
  obtain ⟨hbatches, h0, h1⟩ := hend
  obtain ⟨κ, -, ht, -⟩ := run_follows (fun _ _ _ _ _ => trivial) (guarded_true _ pairRun) hrun
  rcases b with _ | _ | b
  · simp [h0, CallerPc.Live]
  · simp [h1, CallerPc.Live]
  · exact fun hlive => hlive.1 (ht.tidy.fresh (b + 2) (by omega))

/-- Each item of both calls has its answer. -/
theorem exactly_once_pair : ∃ s, runFrom (step smallEnv) (Sys.init Nat.toUInt8) pairRun = some s ∧
    (s.batch 0).results.map IoResult.success = [true, true] ∧ (s.batch 1).results.map IoResult.success = [true] ∧
    Answered s 0 ∧ Answered s 1 := by
  have hend : (runFrom (step smallEnv) (Sys.init Nat.toUInt8) pairRun).any (fun s =>
      decide (((s.batch 0).caller = .returned ∧ (s.batch 1).caller = .returned) ∧
        (s.batch 0).results.map IoResult.success = [true, true] ∧
        (s.batch 1).results.map IoResult.success = [true])) = true := by decide +kernel
  obtain ⟨s, hrun, hs⟩ := (Option.any_eq_true _ _).1 hend
  obtain ⟨⟨h0, h1⟩, hread, hwrite⟩ := of_decide_eq_true hs
  obtain ⟨-, -, -, hanswered⟩ := exactly_once hrun
  exact ⟨s, hrun, hread, hwrite, hanswered 0 (.inr h0), hanswered 1 (.inr h1)⟩

end SpdkBdevContext
end SpdkConnector
