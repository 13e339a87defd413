import SpdkConnector.Context.Serving

/-!
# Batch calls are atomic

The context serves any number of calls of `submit_batch_and_wait` at a time, on any number of reactors, with
bounded DMA pools and retries. Where no two batches served together share a byte that one of them writes, each call
takes effect when it returns: the history of calls and returns is one of the connector's program, run alone on the
device, return after return (`batches_atomic`).

| here | there |
| --- | --- |
| `BatchEvent`, `events` | the calls that are admitted (:677-724), and what they return (:744-749) |
| `Linear` | the device between the calls, and what each call being served was called with |
| `Atomic` | a history in which the calls are served one at a time |
-/

namespace SpdkConnector
namespace SpdkBdevContext

open Interleaving

variable {e : Env} {s s' : Sys} {κ κ' : Core} {b : Nat} {device D : Nat → UInt8} {calls : Nat → BatchCall}

/-! ## The device between the calls -/

theorem move_returned (hm : Move e κ κ') (h : (κ.batch b).caller = .returned) : (κ'.batch b).caller = .returned := by
  cases hm with
  | submit c op items memory pc req hnew =>
    have hne : b ≠ c := by
      rintro rfl
      rw [hnew] at h
      cases h
    simpa [hne] using h
  | deliver r k => exact (field_update IoBatchRequest.caller (by rfl) b).trans h
  | complete r success error => exact (field_update IoBatchRequest.caller (by rfl) b).trans h
  | caller c pc hpc =>
    have hne : b ≠ c := by
      rintro rfl
      exact hpc.live.2 h
    simpa [hne] using h
  | _ => exact h

theorem moves_returned (hm : Moves e κ κ') (h : (κ.batch b).caller = .returned) : (κ'.batch b).caller = .returned := by
  induction hm with
  | refl => exact h
  | tail _ hlast ih => exact move_returned hlast ih

/-- A byte of the bdev that changes is one of a write being served. -/
theorem move_device (hi : Isolated e κ) (hc : Consistent e κ) (hm : Move e κ κ') {a : Nat}
    (h : κ'.device a ≠ κ.device a) :
    ∃ b it, (κ.batch b).caller.Live ∧ (κ.batch b).operation = .write ∧ it ∈ (κ.batch b).items ∧ ItemBytes it a := by
  have hwrite : ∀ (r : Ref) (c : Command), κ.stage r = .inFlight c → c.operation = .write → c.start e ≤ a →
      a < c.start e + c.length e →
      ∃ b it, (κ.batch b).caller.Live ∧ (κ.batch b).operation = .write ∧ it ∈ (κ.batch b).items ∧ ItemBytes it a := by
    intro r c hr hop hle hlt
    obtain ⟨hop', k, -, hstart, hlength, -⟩ := command_range hi hc hr
    obtain ⟨hbuilt, hlive⟩ := leases_live (r := r) hc (by rw [hr]; trivial)
    obtain ⟨hmem, -, hbatch⟩ := built_ok hc hbuilt
    rw [hstart] at hle hlt
    rw [hlength] at hlt
    exact ⟨r.1, _, hlive, hbatch.symm.trans (hop'.symm.trans hop), hmem, hle, hlt⟩
  cases hm with
  | transferWrite r c n hr hop hle =>
    by_cases hin : c.start e + c.moved ≤ a ∧ a < c.start e + c.moved + n
    · exact hwrite r c hr hop (by omega) (by omega)
    · exact absurd (if_neg hin) h
  | disturbWrite r c noise hr hop =>
    by_cases hin : c.start e ≤ a ∧ a < c.start e + c.length e
    · exact hwrite r c hr hop hin.1 hin.2
    · exact absurd (if_neg hin) h
  | _ => exact absurd rfl h

theorem moves_device (hg : e.geometry.Valid) (hp : Pooled κ) (hi : Isolated e κ) (hc : Consistent e κ)
    (hm : Moves e κ κ') (hmarks : ¬ κ'.marks .released ∧ ¬ κ'.marks .clashed) {a : Nat}
    (h : κ'.device a ≠ κ.device a) :
    ∃ b it, (κ'.batch b).caller ≠ .absent ∧ (κ.batch b).caller ≠ .returned ∧ (κ'.batch b).operation = .write ∧
      it ∈ (κ'.batch b).items ∧ ItemBytes it a := by
  induction hm with
  | refl => exact absurd rfl h
  | @tail κ1 κ2 hm hlast ih =>
    have hclean := And.intro (fun h => hmarks.1 (marks_grow hlast h)) fun h => hmarks.2 (marks_grow hlast h)
    by_cases hlater : κ1.device a = κ.device a
    · obtain ⟨b, it, hlive, hop, hmem, ha⟩ := move_device (isolated_moves hg hp hi hc hm hclean)
        (moves_consistent hc hm) hlast (hlater ▸ h)
      obtain ⟨h1, h2, h3⟩ := move_present hlast hlive.1
      exact ⟨b, it, h1, fun hr => hlive.2 (moves_returned hm hr), h3 ▸ hop, h2 ▸ hmem, ha⟩
    · obtain ⟨b, it, hpresent, hnot, hop, hmem, ha⟩ := ih hclean hlater
      obtain ⟨h1, h2, h3⟩ := move_present hlast hpresent
      exact ⟨b, it, h1, hnot, h3 ▸ hop, h2 ▸ hmem, ha⟩

/-- `D` is the bdev, but for the ranges of the writes being served. -/
def Agrees (D : Nat → UInt8) (s : Sys) : Prop :=
  ∀ a, (∀ b it, (s.batch b).caller.Live → (s.batch b).operation = .write → it ∈ (s.batch b).items →
    ¬ ItemBytes it a) → D a = s.device a

/-! ## The calls being served -/

/-- Batch `b` is the call, and its caller's bytes are those it was called with, but where a read was copied. -/
structure Serving (κ : Core) (b : Nat) (call : BatchCall) : Prop where
  operation : (κ.batch b).operation = call.operation
  items : (κ.batch b).items = call.items
  nonempty : call.items ≠ []
  apart : call.operation = .read → call.items.Pairwise BufferApart
  memory : ∀ buffer a, (∀ i it, (κ.batch b).items[i]? = some it → (κ.request (b, i)).copied ≠ none →
    ¬ CallerBytes it buffer a) → (κ.batch b).memory buffer a = call.memory buffer a

theorem Serving.moves {call : BatchCall} (h : Serving κ b call) (hc : Consistent e κ) (hm : Moves e κ κ')
    (hb : (κ.batch b).caller ≠ .absent) : Serving κ' b call := by
  obtain ⟨-, hitems, hop⟩ := moves_present hm hb
  have hretains := moves_retain hc hm hb
  refine ⟨hop.trans h.operation, hitems.trans h.items, h.nonempty, h.apart, fun buffer a hcopied => ?_⟩
  rw [hitems] at hcopied
  rw [hretains.memory buffer a hcopied]
  exact h.memory buffer a fun i it hi hk => hcopied i it hi (hretains.copied i hk)

/-- The marks of a run before the teardown whose batches do not overlap. -/
def CalmMarks (m : Mark) : Prop := m ≠ .released ∧ m ≠ .clashed

/-- What is known while calls are served: `D` is the device between them. -/
structure Linear (e : Env) (device : Nat → UInt8) (s : Sys) (κ : Core) (D : Nat → UInt8) (calls : Nat → BatchCall) :
    Prop where
  quiet : Quiet e device CalmMarks s κ
  reported : Reported κ
  plain : s.Plain
  agrees : Agrees D s
  serving : ∀ b, (s.batch b).caller.Live → Serving κ b (calls b)

theorem Quiet.isolated (hg : e.geometry.Valid) (h : Quiet e device CalmMarks s κ) : Pooled κ ∧ Isolated e κ :=
  ⟨h.pooled fun hr => hr.1 rfl, isolated_moves hg (init_pooled device) (init_isolated device)
    (init_consistent e device) h.moves ⟨fun hr => (h.marked _ hr).1 rfl, fun hr => (h.marked _ hr).2 rfl⟩⟩

theorem moves_reported (h : Reported κ) (hc : Consistent e κ) (hm : Moves e κ κ') : Reported κ' := by
  induction hm with
  | refl => exact h
  | tail hm hlast ih => exact move_reported ih (moves_consistent hc hm) hlast

theorem init_linear (device : Nat → UInt8) (calls : Nat → BatchCall) :
    Linear e device (Sys.init device) (Core.init device) device calls where
  quiet := init_quiet device _
  reported _ h := absurd rfl h
  plain := init_plain device
  agrees _ _ := rfl
  serving _ h := absurd rfl h.1

/-- The items of a batch that reads have their own places in the caller's buffers. -/
def OwnPlaces : Action → Prop
  | .submit .read items _ => items.Pairwise BufferApart
  | _ => True

/-- What callers promise: no two batches served together and no two items of a write share a byte of the device that
one of them writes, and each item of a read has its own place. -/
def Separate (s : Sys) (a : Action) : Prop :=
  Disjoint s a ∧ OwnPlaces a

theorem separate_marks {a : Action} {m : Mark} (h : Separate s a) (hm : stepMarks s a m) :
    m = .released ∨ CalmMarks m := by
  cases a with
  | reactor w c => exact .inl hm.1
  | caller b c => exact .inr (by simp [CalmMarks, show m = _ from hm])
  | submit operation items memory => exact absurd h.1 hm.2
  | owner c => exact hm.elim
  | transfer w k n => exact hm.elim
  | disturb w k noise => exact hm.elim
  | runtimeStops => exact hm.elim

/-- The calls being served, with the one an action makes. -/
def callsAfter (s : Sys) (calls : Nat → BatchCall) : Action → Nat → BatchCall
  | .submit operation items memory => Function.update calls s.batches ⟨operation, items, memory⟩
  | _ => calls

theorem callsAfter_live (ht : Tracks s κ) {a : Action} (hb : (s.batch b).caller.Live) :
    callsAfter s calls a b = calls b := by
  cases a with
  | submit operation items memory =>
    refine Function.update_of_ne ?_ _ _
    rintro rfl
    exact hb.1 (ht.tidy.fresh _ (Nat.le_refl _))
  | _ => rfl

/-- A call returns. -/
def Returns (s : Sys) (b : Nat) (a : Action) : Prop := a = .caller b .next ∧ (s.batch b).caller = .returning

/-- A caller is back only by returning. -/
theorem step_returned (ht : Tracks s κ) {a : Action} (h : step e s a = some s')
    (hb : (s'.batch b).caller = .returned) : (s.batch b).caller = .returned ∨ Returns s b a := by
  have hcalled := step_called ht h b
  revert hb
  generalize (s'.batch b).caller = pc at hcalled
  intro hb
  cases hcalled with
  | same => exact .inl hb
  | woken => cases hb
  | went c pc hlive hreturned =>
    have hreturning := hreturned.1 hb
    refine .inr ⟨?_, hreturning⟩
    simp only [step, callerStep, hreturning] at h
    cases c <;> simp_all
  | submitted => cases hb

/-- A caller that is in a call was in it, or has made it. -/
theorem step_live (ht : Tracks s κ) {a : Action} (h : step e s a = some s') (hb : (s'.batch b).caller.Live) :
    (s.batch b).caller.Live ∨ (s.batch b).caller = .absent ∧ ∃ operation items memory,
      a = .submit operation items memory := by
  have hcalled := step_called ht h b
  revert hb
  generalize (s'.batch b).caller = pc at hcalled
  intro hb
  cases hcalled with
  | same => exact .inl hb
  | woken w c rest hst hsleep => exact .inl (by simp [hsleep, CallerPc.Live])
  | went c pc hlive => exact .inl hlive
  | submitted operation items memory todo hnew => exact .inr ⟨hnew, operation, items, memory, rfl⟩

/-- The batch a submission builds. -/
theorem submit_serving {operation : Operation} {items : List IoBatchItem} {memory : Nat → Nat → UInt8}
    (ht' : Tracks s' κ') (hseparate : Separate s (.submit operation items memory))
    (h : step e s (.submit operation items memory) = some s') (habsent : (s.batch b).caller = .absent)
    (hlive : (s'.batch b).caller.Live) : b = s.batches ∧ Serving κ' b ⟨operation, items, memory⟩ := by
  simp only [step] at h
  split at h
  case isFalse => cases h
  cases h
  have hne : items ≠ [] := by
    rintro rfl
    exact hlive.1 (by simpa [submitBatch] using habsent)
  obtain ⟨n, m, heq⟩ | ⟨-, -, -, -, -, n, m, heq⟩ := submitBatch_cases e s operation items memory
  · rw [heq] at hlive
    exact absurd habsent hlive.1
  · have hb : b = s.batches := by
      by_contra hb
      rw [heq] at hlive
      simp only [Function.update_of_ne hb] at hlive
      exact hlive.1 habsent
    subst hb
    have hbatch : (κ'.batch s.batches) = ⟨operation, items, items.length, List.replicate items.length ⟨false, ""⟩,
        memory, .posting (makeDispatches s s.batches items.length)⟩ := by
      rw [ht'.batch, heq]
      exact Function.update_self ..
    refine ⟨rfl, by rw [hbatch], by rw [hbatch], hne, fun hop => ?_, fun buffer a _ => by rw [hbatch]⟩
    obtain rfl : operation = .read := hop
    exact hseparate.2

/-- Until a call returns, a step serves the calls. -/
theorem linear_step (hg : e.geometry.Valid) (h : Linear e device s κ D calls) (hcalm : s.Calm) {a : Action}
    (hseparate : Separate s a) (hs : step e s a = some s') (hnot : ∀ b, ¬ Returns s b a) :
    ∃ κ', Moves e κ κ' ∧ Linear e device s' κ' D (callsAfter s calls a) := by
  obtain ⟨κ', hm, hq⟩ := quiet_step hcalm (fun m => separate_marks hseparate) h.quiet hs
  have hc := h.quiet.consistent
  have ht := h.quiet.tracks
  have hstay : ∀ b, (s'.batch b).caller = .returned → (s.batch b).caller = .returned :=
    fun b hb => (step_returned ht hs hb).resolve_right (hnot b)
  refine ⟨κ', hm, hq, moves_reported h.reported hc hm, plain_step h.plain ht hc hs, fun a ha => ?_, fun b hb => ?_⟩
  · have hsame : s'.device a = s.device a := by
      by_contra hne
      obtain ⟨hp, hi⟩ := h.quiet.isolated hg
      obtain ⟨b, it, hpresent, hgone, hop, hmem, hin⟩ := moves_device hg hp hi hc hm
        ⟨fun hr => (hq.marked _ hr).1 rfl, fun hr => (hq.marked _ hr).2 rfl⟩
        (by rwa [hq.tracks.device, ht.device])
      rw [hq.tracks.batch] at hpresent hop hmem
      rw [ht.batch] at hgone
      exact ha b it ⟨hpresent, fun hr => hgone (hstay b hr)⟩ hop hmem hin
    rw [hsame]
    refine h.agrees a fun b it hlive hop hmem hin => ?_
    obtain ⟨h1, h2, h3⟩ := moves_present hm (by rw [ht.batch]; exact hlive.1)
    rw [hq.tracks.batch, ht.batch] at h2 h3
    rw [hq.tracks.batch] at h1
    exact ha b it ⟨h1, fun hr => hlive.2 (hstay b hr)⟩ (h3 ▸ hop) (h2 ▸ hmem) hin
  · rcases step_live ht hs hb with hlive | ⟨habsent, operation, items, memory, rfl⟩
    · have hserving := (h.serving b hlive).moves hc hm (by rw [ht.batch]; exact hlive.1)
      rwa [callsAfter_live ht hlive]
    · obtain ⟨rfl, hserving⟩ := submit_serving hq.tracks hseparate hs habsent hb
      rwa [show callsAfter s calls (.submit operation items memory) s.batches = ⟨operation, items, memory⟩ from
        Function.update_self ..]

/-! ## Returning -/

theorem target_iff {it : IoBatchItem} {buffer a : Nat} : CallerBytes it buffer a ↔ Target it buffer a := by
  constructor
  · rintro ⟨p, hp, rfl, h⟩
    exact ⟨p, hp, rfl, h⟩
  · rintro ⟨p, hp, rfl, h⟩
    exact ⟨p, hp, rfl, h⟩

/-- Items with places of their own share no byte of the caller's. -/
theorem unshared_of_apart {items : List IoBatchItem} (h : items.Pairwise BufferApart) {i : Nat} {it : IoBatchItem}
    (hi : items[i]? = some it) {buffer a : Nat} (ha : Target it buffer a) : Unshared items i buffer a := by
  intro j it' hne hj hshared
  have hapart : BufferApart it it' := by
    obtain ⟨hlt, rfl⟩ := List.getElem?_eq_some_iff.1 hi
    obtain ⟨hlt', rfl⟩ := List.getElem?_eq_some_iff.1 hj
    rcases Nat.lt_or_gt_of_ne hne with hji | hij
    · exact (List.pairwise_iff_getElem.1 h j i hlt' hlt hji).symm
    · exact List.pairwise_iff_getElem.1 h i j hlt hlt' hij
  exact hapart buffer a ⟨ha, target_iff.1 hshared⟩

/-- A batch about to return has every request completed. -/
theorem returning_completed (hc : Consistent e κ) (hb : (κ.batch b).caller = .returning) {i : Nat}
    (hi : i < (κ.batch b).items.length) : κ.stage (b, i) = .completed := by
  have hzero := hc.returned b (.inl hb)
  rw [hc.remaining b] at hzero
  have hclosed := openCount_zero hzero i hi
  cases hst : κ.stage (b, i) <;> simp_all [Stage.Open]

/-- What a call about to return delivers. -/
theorem returning_delivers (hg : e.geometry.Valid) (h : Linear e device s κ D calls)
    (hb : (s.batch b).caller = .returning) :
    Delivers (calls b) ⟨(s.batch b).results, (s.batch b).memory⟩ s.device := by
  have hlive : (s.batch b).caller.Live := by simp [hb, CallerPc.Live]
  have hc := h.quiet.consistent
  have ht := h.quiet.tracks
  obtain ⟨-, hi⟩ := h.quiet.isolated hg
  have hserving := h.serving b hlive
  rw [← ht.batch] at hb hlive
  rw [← ht.batch, ← ht.device]
  -- a result is a success where the request succeeded
  have hresult : ∀ i it x, (calls b).items[i]? = some it → (κ.batch b).results[i]? = some x →
      κ.stage (b, i) ≠ .absent ∧ (κ.request (b, i)).item = it ∧
      (κ.request (b, i)).operation = (calls b).operation ∧ (x.success = true ↔ (κ.request (b, i)).Succeeded) := by
    intro i it x hit hx
    rw [← hserving.items] at hit
    have hdone := returning_completed hc hb (List.getElem?_eq_some_iff.1 hit).1
    obtain ⟨hitem, -, hop⟩ := hc.built b i it hit
    obtain ⟨x', hx', hsuccess⟩ := hc.result b i hdone
    obtain rfl := Option.some.inj (hx.symm.trans hx')
    exact ⟨by simp [hdone], hitem, hop.trans hserving.operation, hsuccess⟩
  refine ⟨?_, ?_, fun hwrite i it x hit hx hsuccess j hj => ?_, fun hread i it x hit hx hsuccess p hp j hj => ?_,
    fun buffer a ha => ?_⟩
  · rw [← hserving.items]
    exact hc.results_length b
  · rw [ht.batch]
    exact h.plain.results b
  · obtain ⟨hbuilt, hitem, hop, hiff⟩ := hresult i it x hit hx
    have hwritten := (hi.holds (b, i)).written hbuilt (hiff.1 hsuccess).1 (hop.trans hwrite) hlive j (hitem ▸ hj)
    have hmemory : (κ.batch b).memory = (calls b).memory := by
      ext buffer a
      rw [hserving.memory buffer a fun i it hit hk => ?_]
      obtain ⟨-, hr⟩ := h.reported (b, i) hk
      rw [(hc.built b i it hit).2.2, hserving.operation, hwrite] at hr
      cases hr
    rwa [hitem, hmemory] at hwritten
  · obtain ⟨hbuilt, hitem, hop, hiff⟩ := hresult i it x hit hx
    have hput := (hi.holds (b, i)).put hbuilt hlive ((hiff.1 hsuccess).2 (hop.trans hread)) p (hitem ▸ hp) j
      (hitem ▸ hj)
    rw [hitem, hserving.items] at hput
    exact hput (unshared_of_apart (hserving.apart hread) hit ⟨p, hp, rfl, by omega, by omega⟩)
  · refine hserving.memory buffer a fun i it hit hk hin => ?_
    obtain ⟨hreported, hread⟩ := h.reported (b, i) hk
    have hdone := returning_completed hc hb (List.getElem?_eq_some_iff.1 hit).1
    obtain ⟨x, hx, hsuccess⟩ := hc.result b i hdone
    have hop : (calls b).operation = .read := by
      rw [← hserving.operation, ← (hc.built b i it hit).2.2]
      exact hread
    exact ha hop i it x (hserving.items ▸ hit) hx (hsuccess.2 ⟨hreported, fun _ => hk⟩) (target_iff.1 hin)

/-- A range that is read is no write's that is being served. -/
theorem reading_apart (hi : Isolated e κ) (hc : Consistent e κ) {b' : Nat} {it it' : IoBatchItem} {a : Nat}
    (hlive : (κ.batch b).caller.Live) (hlive' : (κ.batch b').caller.Live) (hread : (κ.batch b).operation = .read)
    (hwrite : (κ.batch b').operation = .write) (hit : it ∈ (κ.batch b).items) (hit' : it' ∈ (κ.batch b').items)
    (ha : ItemBytes it a) : ¬ ItemBytes it' a := by
  intro ha'
  obtain ⟨i, hi'⟩ := List.getElem?_of_mem hit
  obtain ⟨j, hj'⟩ := List.getElem?_of_mem hit'
  obtain ⟨hitem, -, hop⟩ := hc.built b i it hi'
  obtain ⟨hitem', -, hop'⟩ := hc.built b' j it' hj'
  have hne : ((b, i) : Ref) ≠ (b', j) := by
    intro heq
    rw [(Prod.mk.inj heq).1, hwrite] at hread
    cases hread
  have hbuilt : ∀ c i it, (κ.batch c).items[i]? = some it → κ.stage (c, i) ≠ .absent := fun c i it hit habsent =>
    Nat.not_le.2 (List.getElem?_eq_some_iff.1 hit).1 ((hc.absent_iff c i).1 habsent)
  refine hi.apart (b, i) (b', j) hne (hbuilt b i it hi') (hbuilt b' j it' hj') hlive hlive' ⟨.inr ?_, a, ?_, ?_⟩
  · exact hop'.trans hwrite
  · exact hitem ▸ ha
  · exact hitem' ▸ ha'

/-- The device after a call has returned. -/
def deviceAfter (g : StorageGeometry) (call : BatchCall) (device D : Nat → UInt8) : Nat → UInt8 :=
  match call.operation with
  | .write => overlay g call.items device D
  | .read => D

/-- A call returns as the connector's program does on the device between the calls. -/
theorem linear_return (hg : e.geometry.Valid) (h : Linear e device s κ D calls) (hcalm : s.Calm)
    (hb : (s.batch b).caller = .returning) (hs : step e s (.caller b .next) = some s') :
    Serves e.geometry (calls b) ⟨(s.batch b).results, (s.batch b).memory⟩ D
      (deviceAfter e.geometry (calls b) s.device D) ∧
    ∃ κ', Moves e κ κ' ∧ Linear e device s' κ' (deviceAfter e.geometry (calls b) s.device D) calls := by
  have hlive : (s.batch b).caller.Live := by simp [hb, CallerPc.Live]
  have hc := h.quiet.consistent
  have ht := h.quiet.tracks
  obtain ⟨-, hi⟩ := h.quiet.isolated hg
  have hserving := h.serving b hlive
  have hok : ∀ it ∈ (calls b).items, it.Ok e.geometry := fun it hit => hc.item_ok b it (hserving.items ▸ hit)
  have hdelivers := returning_delivers hg h hb
  refine ⟨?_, ?_⟩
  · cases hop : (calls b).operation with
    | write =>
      simp only [deviceAfter, hop]
      exact writes_served hg hdelivers hop hserving.nonempty hok D
    | read =>
      simp only [deviceAfter, hop]
      refine reads_served hg hdelivers hop hserving.nonempty hok fun it hit a ha => ?_
      refine h.agrees a fun b' it' hlive' hwrite hit' => ?_
      rw [← ht.batch] at hlive hlive' hwrite hit'
      exact reading_apart hi hc hlive hlive' (hserving.operation.trans hop) hwrite (hserving.items ▸ hit) hit' ha
  · obtain ⟨κ', hm, hq⟩ := quiet_step hcalm
      (fun m => separate_marks (a := .caller b .next) ⟨trivial, trivial⟩) h.quiet hs
    have heq : s' = s.setBatch b { s.batch b with caller := .returned } := by
      simp only [step, callerStep, hb, Option.some.injEq] at hs
      exact hs.symm
    have hcaller : ∀ b', (s'.batch b').caller = if b' = b then .returned else (s.batch b').caller := by
      intro b'
      rw [heq]
      by_cases hb' : b' = b <;> simp [Sys.setBatch, hb']
    refine ⟨κ', hm, hq, moves_reported h.reported hc hm, plain_step h.plain ht hc hs, fun a ha => ?_,
      fun b' hb' => ?_⟩
    · -- a byte in the range of a write of the call is the device's, another one is as before
      have hsame : s'.device a = s.device a := by rw [heq]; rfl
      have hothers : ∀ b' it, b' ≠ b → (s.batch b').caller.Live → (s.batch b').operation = .write →
          it ∈ (s.batch b').items → ¬ ItemBytes it a := by
        intro b' it hne hlive' hop hmem
        have hsb : s'.batch b' = s.batch b' := by rw [heq]; exact Function.update_of_ne hne _ _
        exact ha b' it (hsb.symm ▸ hlive') (hsb.symm ▸ hop) (hsb.symm ▸ hmem)
      rw [hsame]
      cases hop : (calls b).operation with
      | write =>
        simp only [deviceAfter, hop, overlay]
        split
        · rfl
        · rename_i hnone
          refine h.agrees a fun b' it hlive' hop' hmem hin => ?_
          rcases eq_or_ne b' b with rfl | hne
          · rw [← ht.batch, hserving.items] at hmem
            exact hnone ⟨it, hmem, (inBlocks_iff hg (hok it hmem)).2.2 hin⟩
          · exact hothers b' it hne hlive' hop' hmem hin
      | read =>
        simp only [deviceAfter, hop]
        refine h.agrees a fun b' it hlive' hop' hmem hin => ?_
        rcases eq_or_ne b' b with rfl | hne
        · rw [← ht.batch, hserving.operation, hop] at hop'
          cases hop'
        · exact hothers b' it hne hlive' hop' hmem hin
    · have hne : b' ≠ b := by
        rintro rfl
        exact hb'.2 (by simp [hcaller])
      have hlive' : (s.batch b').caller.Live := by simpa [hcaller, hne] using hb'
      exact (h.serving b' hlive').moves hc hm (by rw [ht.batch]; exact hlive'.1)

/-! ## Histories -/

inductive BatchEvent where
  | called (b : Nat) (call : BatchCall)
  | returned (b : Nat) (ret : BatchReturn)

/-- The calls an action makes or ends: one that is admitted takes a batch number. -/
def events (e : Env) (s : Sys) : Action → List BatchEvent
  | .submit operation items memory =>
    if (submitBatch e s operation items memory).batches = s.batches then []
    else [.called s.batches ⟨operation, items, memory⟩]
  | .caller b .next =>
    if (s.batch b).caller = .returning then [.returned b ⟨(s.batch b).results, (s.batch b).memory⟩] else []
  | _ => []

/-- The calls of the history are served one at a time, where they return, by the connector's program alone on a
bdev that had the bytes `device` and has `D` now. -/
inductive Atomic (g : StorageGeometry) (device : Nat → UInt8) : List BatchEvent → (Nat → UInt8) → Prop
  | start : Atomic g device [] device
  | called {es : List BatchEvent} {D : Nat → UInt8} (h : Atomic g device es D) (b : Nat) (call : BatchCall)
      (hnew : ∀ call', .called b call' ∉ es) : Atomic g device (es ++ [.called b call]) D
  | returned {es : List BatchEvent} {D D' : Nat → UInt8} (h : Atomic g device es D) (b : Nat) (call : BatchCall)
      (ret : BatchReturn) (hcalled : .called b call ∈ es) (honce : ∀ ret', .returned b ret' ∉ es)
      (hserves : Serves g call ret D D') : Atomic g device (es ++ [.returned b ret]) D'

/-- A history and the state it has led to. -/
structure Told (e : Env) (device : Nat → UInt8) (es : List BatchEvent) (s : Sys) (D : Nat → UInt8)
    (calls : Nat → BatchCall) : Prop where
  atomic : Atomic e.geometry device es D
  called : ∀ b, (s.batch b).caller.Live → .called b (calls b) ∈ es ∧ ∀ ret, .returned b ret ∉ es
  present : ∀ b call, .called b call ∈ es → (s.batch b).caller ≠ .absent

theorem Atomic.called_of_returned {g : StorageGeometry} {es : List BatchEvent} (h : Atomic g device es D)
    {ret : BatchReturn} (hb : .returned b ret ∈ es) : ∃ call, .called b call ∈ es := by
  induction h with
  | start => simp at hb
  | called h c call hnew ih =>
    simp only [List.mem_append, List.mem_singleton, reduceCtorEq, or_false] at hb
    obtain ⟨call', hcall⟩ := ih hb
    exact ⟨call', List.mem_append_left _ hcall⟩
  | returned h c call ret' hcalled honce hserves ih =>
    simp only [List.mem_append, List.mem_singleton, BatchEvent.returned.injEq] at hb
    rcases hb with hb | ⟨rfl, -⟩
    · obtain ⟨call', hcall⟩ := ih hb
      exact ⟨call', List.mem_append_left _ hcall⟩
    · exact ⟨call, List.mem_append_left _ hcalled⟩

theorem events_nil {a : Action} (hnot : ∀ b, ¬ Returns s b a)
    (hsubmit : ∀ operation items memory, a ≠ .submit operation items memory) : events e s a = [] := by
  cases a with
  | submit operation items memory => exact absurd rfl (hsubmit operation items memory)
  | caller b c =>
    cases c with
    | next => exact if_neg fun hb => hnot b ⟨rfl, hb⟩
    | _ => rfl
  | _ => rfl

theorem told_returns {es : List BatchEvent} (h : Told e device es s D calls) (hlive : (s.batch b).caller.Live)
    {D' : Nat → UInt8} {ret : BatchReturn} (hserves : Serves e.geometry (calls b) ret D D')
    (hcaller : ∀ b', (s'.batch b').caller = if b' = b then .returned else (s.batch b').caller) :
    Told e device (es ++ [.returned b ret]) s' D' calls := by
  obtain ⟨hcalled, honce⟩ := h.called b hlive
  refine ⟨.returned h.atomic b _ ret hcalled honce hserves, fun b' hb' => ?_, fun b' call hmem => ?_⟩
  · have hne : b' ≠ b := by
      rintro rfl
      exact hb'.2 (by simp [hcaller])
    obtain ⟨h1, h2⟩ := h.called b' (by simpa [hcaller, hne] using hb')
    exact ⟨List.mem_append_left _ h1, fun ret' hmem => h2 ret' (by simpa [hne] using hmem)⟩
  · rw [hcaller]
    split
    · nofun
    · exact h.present b' call (by simpa using hmem)

/-- A submission is told if it is admitted. -/
theorem told_submit {es : List BatchEvent} (ht : Tracks s κ) (h : Told e device es s D calls) {operation : Operation}
    {items : List IoBatchItem} {memory : Nat → Nat → UInt8} (hs : submitBatch e s operation items memory = s') :
    Told e device (es ++ events e s (.submit operation items memory)) s' D
      (callsAfter s calls (.submit operation items memory)) := by
  have hfresh := ht.tidy.fresh s.batches (Nat.le_refl _)
  have hunknown : ∀ call, .called s.batches call ∉ es := fun call hmem => h.present _ call hmem hfresh
  obtain ⟨n, m, heq⟩ | ⟨-, -, -, -, -, n, m, heq⟩ := submitBatch_cases e s operation items memory
  · have hnone : events e s (.submit operation items memory) = [] := by simp [events, heq]
    have hbatch : s'.batch = s.batch := by rw [← hs, heq]
    rw [hnone, List.append_nil]
    refine ⟨h.atomic, fun b hb => ?_, by rw [hbatch]; exact h.present⟩
    rw [hbatch] at hb
    rw [callsAfter_live ht hb]
    exact h.called b hb
  · have hone : events e s (.submit operation items memory) = [.called s.batches ⟨operation, items, memory⟩] := by
      simp [events, heq]
    have hbatch : ∀ b, b ≠ s.batches → s'.batch b = s.batch b := by
      intro b hb
      rw [← hs, heq]
      exact Function.update_of_ne hb _ _
    rw [hone]
    refine ⟨.called h.atomic _ _ hunknown, fun b hb => ?_, fun b call hmem => ?_⟩
    · rcases eq_or_ne b s.batches with rfl | hne
      · refine ⟨by simp [callsAfter], fun ret hmem => ?_⟩
        obtain ⟨call, hcall⟩ := h.atomic.called_of_returned (b := s.batches) (by simpa using hmem)
        exact hunknown call hcall
      · rw [hbatch b hne] at hb
        obtain ⟨h1, h2⟩ := h.called b hb
        rw [callsAfter_live ht hb]
        exact ⟨List.mem_append_left _ h1, fun ret hmem => h2 ret (by simpa using hmem)⟩
    · rcases eq_or_ne b s.batches with rfl | hne
      · rw [← hs, heq]
        simp
      · rw [hbatch b hne]
        exact h.present b call (by simpa [hne] using hmem)

theorem told_step (hg : e.geometry.Valid) {es : List BatchEvent} (hlin : Linear e device s κ D calls)
    (h : Told e device es s D calls) (hcalm : s.Calm) {a : Action} (hseparate : Separate s a)
    (hs : step e s a = some s') :
    ∃ κ' D' calls', Linear e device s' κ' D' calls' ∧ Told e device (es ++ events e s a) s' D' calls' := by
  have ht := hlin.quiet.tracks
  by_cases hreturns : ∃ b, Returns s b a
  · obtain ⟨b, rfl, hb⟩ := hreturns
    obtain ⟨hserves, κ', hm, hlin'⟩ := linear_return hg hlin hcalm hb hs
    have hone : events e s (.caller b .next) = [.returned b ⟨(s.batch b).results, (s.batch b).memory⟩] := if_pos hb
    refine ⟨κ', _, calls, hlin', hone ▸ told_returns h (by simp [hb, CallerPc.Live]) hserves fun b' => ?_⟩
    simp only [step, callerStep, hb, Option.some.injEq] at hs
    rw [← hs]
    by_cases hb' : b' = b <;> simp [Sys.setBatch, hb']
  · have hnot : ∀ b, ¬ Returns s b a := fun b hr => hreturns ⟨b, hr⟩
    obtain ⟨κ', hm, hlin'⟩ := linear_step hg hlin hcalm hseparate hs hnot
    refine ⟨κ', D, _, hlin', ?_⟩
    by_cases hsubmit : ∃ operation items memory, a = .submit operation items memory
    · obtain ⟨operation, items, memory, rfl⟩ := hsubmit
      simp only [step] at hs
      split at hs
      · exact told_submit ht h (Option.some.inj hs)
      · cases hs
    · have hsame : callsAfter s calls a = calls := by
        cases a with
        | submit operation items memory => exact absurd ⟨_, _, _, rfl⟩ hsubmit
        | _ => rfl
      rw [events_nil hnot fun operation items memory ha => hsubmit ⟨_, _, _, ha⟩, List.append_nil, hsame]
      refine ⟨h.atomic, fun b hb => h.called b ?_, fun b call hmem => ?_⟩
      · refine (step_live ht hs hb).resolve_right ?_
        rintro ⟨-, operation, items, memory, ha⟩
        exact hsubmit ⟨operation, items, memory, ha⟩
      · have := (moves_present hm (by rw [ht.batch]; exact h.present b call hmem)).1
        rwa [hlin'.quiet.tracks.batch] at this

/-- **Batch calls are atomic**: in every run before a shutdown has started, for any number of reactors, calls and
DMA buffers and in any order of steps, as long as the submitted batches are `Separate` (those served together share
no byte that is written, and each item of a read has its own place in its caller's buffers), the calls that returned
did so as the connector's program does when it is run alone on the device, one call after another in the order they
returned; and the bdev has the bytes these left, but for the ranges of the writes that have not returned. -/
theorem batches_atomic {nb bs wu ba seg mx bc : Nat} {device : Nat → UInt8} {as : List Action} {s : Sys}
    (hgeometry : buildStorageGeometry nb bs wu ba seg mx bc = .ok e.geometry)
    (hseparate : Guarded (step e) Separate (Sys.init device) as)
    (h : runFrom (step e) (Sys.init device) as = some s) (hcalm : s.ctx.shutdownStarted = false) :
    ∃ D, Atomic e.geometry device (observed (step e) (events e) (Sys.init device) as) D ∧ Agrees D s := by
  have hg := buildStorageGeometry_valid hgeometry
  have hinit : Told e device [] (Sys.init device) device fun _ => ⟨.read, [], fun _ _ => 0⟩ :=
    ⟨.start, fun b hb => absurd rfl hb.1, fun _ _ hmem => absurd hmem List.not_mem_nil⟩
  obtain ⟨-, κ, D, calls, hlin, htold⟩ := calm_observed (events e)
    (I := fun es s => ∃ κ D calls, Linear e device s κ D calls ∧ Told e device es s D calls)
    ⟨_, _, _, init_linear device _, hinit⟩
    (fun es s1 a s2 hcalm1 ⟨κ, D, calls, hlin, htold⟩ hok hs => told_step hg hlin htold hcalm1 hok hs) hseparate h hcalm
  exact ⟨D, htold.atomic, hlin.agrees⟩

/-- The read of two pages and the write of a third: when both have returned, the pages read are as they were. -/
theorem batches_atomic_pair : ∃ D, Atomic smallEnv.geometry Nat.toUInt8
    (observed (step smallEnv) (events smallEnv) (Sys.init Nat.toUInt8) pairRun) D ∧
    (observed (step smallEnv) (events smallEnv) (Sys.init Nat.toUInt8) pairRun).length = 4 ∧
    D 2 = 2 ∧ D 4 = 5 ∧ D 5 = 0 := by
  have hend : (runFrom (step smallEnv) (Sys.init Nat.toUInt8) pairRun).any (fun s =>
      decide (s.ctx.shutdownStarted = false ∧ s.device 2 = 2 ∧ s.device 4 = 5 ∧ s.device 5 = 0)) = true := by
    decide +kernel
  obtain ⟨s, hrun, hs⟩ := (Option.any_eq_true _ _).1 hend
  obtain ⟨hcalm, h2, h4, h5⟩ := of_decide_eq_true hs
  have hplaces : ∀ a ∈ pairRun, OwnPlaces a := by
    simp [pairRun, pairServed, openRun, submitRun, serveRun, OwnPlaces, BufferApart, Target]
    omega
  have hseparate : Guarded (step smallEnv) Separate (Sys.init Nat.toUInt8) pairRun :=
    (guarded_known (by decide +kernel)).and (guarded_always _ fun a ha _ => hplaces a ha)
  have hgeometry : buildStorageGeometry 4 2 1 1 4 0 1 = .ok smallEnv.geometry := rfl
  obtain ⟨D, hatomic, hagrees⟩ := batches_atomic hgeometry hseparate hrun hcalm
  have hall : ∀ a, D a = s.device a := fun a => hagrees a fun b it hlive => absurd hlive (pairRun_idle hrun b)
  exact ⟨D, hatomic, by decide +kernel, (hall 2).trans h2, (hall 4).trans h4, (hall 5).trans h5⟩

end SpdkBdevContext
end SpdkConnector
