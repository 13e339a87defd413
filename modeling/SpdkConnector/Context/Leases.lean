import SpdkConnector.Context.Requests

/-!
# Who leases which buffer

As long as no pool is released the leases of a pool and the requests that hold its buffers are one to one
(`Pooled`): every move keeps it.
-/

namespace SpdkConnector
namespace SpdkBdevContext

variable {e : Env} {κ κ' : Core} {r : Ref} {w : Nat}

/-- The request holds a buffer. -/
def Stage.Leases : Stage → Prop
  | .inFlight _ | .reported _ => True
  | _ => False

/-- The leases of each pool, and the requests that hold its buffers. -/
structure Pooled (κ : Core) : Prop where
  pool : ∀ w, (κ.pool w).WF ∧ (κ.pool w).buffers.Nodup
  lease : ∀ r k, (κ.stage r).Leases → (κ.request r).bufferIndex = some k →
    (κ.pool (κ.request r).worker).Leased k
  alone : ∀ r r' k, (κ.stage r).Leases → (κ.stage r').Leases →
    (κ.request r).worker = (κ.request r').worker → (κ.request r).bufferIndex = some k →
    (κ.request r').bufferIndex = some k → r = r'
  owned : ∀ w k, (κ.pool w).Leased k →
    ∃ r, (κ.stage r).Leases ∧ (κ.request r).worker = w ∧ (κ.request r).bufferIndex = some k

/-- No request takes or gives back a buffer. -/
theorem Pooled.keep (h : Pooled κ) (hpool : κ'.pool = κ.pool) (hl : ∀ r, (κ'.stage r).Leases ↔ (κ.stage r).Leases)
    (hq : ∀ r, (κ.stage r).Leases → (κ'.request r).worker = (κ.request r).worker ∧
      (κ'.request r).bufferIndex = (κ.request r).bufferIndex) : Pooled κ' := by
  refine ⟨fun w => hpool ▸ h.pool w, fun r k hr hk => ?_, fun r r' k hr hr' hw hk hk' => ?_, fun w k hk => ?_⟩
  · rw [hl] at hr
    obtain ⟨h1, h2⟩ := hq r hr
    rw [h2] at hk
    rw [h1, hpool]
    exact h.lease r k hr hk
  · rw [hl] at hr hr'
    obtain ⟨h1, h2⟩ := hq r hr
    obtain ⟨h3, h4⟩ := hq r' hr'
    rw [h2] at hk
    rw [h4] at hk'
    rw [h1, h3] at hw
    exact h.alone r r' k hr hr' hw hk hk'
  · rw [hpool] at hk
    obtain ⟨r, hr, hw, hb⟩ := h.owned w k hk
    obtain ⟨h1, h2⟩ := hq r hr
    exact ⟨r, (hl r).2 hr, h1.trans hw, h2.trans hb⟩

/-- One request goes to another stage with the buffer it has, or has not. -/
theorem Pooled.turn (h : Pooled κ) {t : Stage} {q : IoRequest} (hstage : κ'.stage = Function.update κ.stage r t)
    (hreq : κ'.request = Function.update κ.request r q) (hpool : κ'.pool = κ.pool)
    (ht : t.Leases ↔ (κ.stage r).Leases)
    (hq : q.worker = (κ.request r).worker ∧ q.bufferIndex = (κ.request r).bufferIndex) : Pooled κ' := by
  refine h.keep hpool (fun r' => ?_) fun r' _ => ?_
  · rw [hstage]
    rcases eq_or_ne r' r with rfl | hne
    · rw [Function.update_self]
      exact ht
    · rw [Function.update_of_ne hne]
  · rw [hreq]
    rcases eq_or_ne r' r with rfl | hne
    · rw [Function.update_self]
      exact hq
    · rw [Function.update_of_ne hne]
      exact ⟨rfl, rfl⟩

/-- A buffer is leased to a request that had none. -/
theorem accept_pooled (h : Pooled κ) {k : Nat} {free : List Nat} (hr : κ.stage r = .queued)
    (hini : (κ.pool (κ.request r).worker).initialized = true)
    (hfree : (κ.pool (κ.request r).worker).freeIndexes = k :: free) : Pooled (κ.accept e r k free) := by
  obtain ⟨hwf, hnodup⟩ := h.pool (κ.request r).worker
  obtain ⟨hlt, hk⟩ := (hwf.free_iff k).1 (by simp [hfree])
  have hlt' : k < (κ.pool (κ.request r).worker).inUse.length := hwf.lengths ▸ hlt
  have hself : ((κ.accept e r k free).stage r).Leases ∧
      (κ.accept e r k free).request r = { κ.request r with bufferIndex := some k } := by
    simp [Core.accept, Stage.Leases]
  have hother : ∀ r', r' ≠ r → (κ.accept e r k free).stage r' = κ.stage r' ∧
      (κ.accept e r k free).request r' = κ.request r' := by
    intro r' hne
    simp [Core.accept, hne]
  have hpool : ∀ v, (∀ j, ((κ.accept e r k free).pool v).Leased j ↔
      (v = (κ.request r).worker ∧ j = k) ∨ (κ.pool v).Leased j) ∧
      ((κ.accept e r k free).pool v).WF ∧ ((κ.accept e r k free).pool v).buffers.Nodup := by
    intro v
    rcases eq_or_ne v (κ.request r).worker with rfl | hv
    · have hp : (κ.accept e r k free).pool (κ.request r).worker = { κ.pool (κ.request r).worker with
          freeIndexes := free, inUse := (κ.pool (κ.request r).worker).inUse.set k true } :=
        Function.update_self _ _ _
      rw [hp]
      refine ⟨fun j => ?_, hwf.acquired hfree hini, hnodup⟩
      rw [SpdkBufferPool.leased_set_true hlt', and_iff_right rfl]
    · have hp : (κ.accept e r k free).pool v = κ.pool v := Function.update_of_ne hv _ _
      rw [hp]
      exact ⟨fun j => by simp [hv], h.pool v⟩
  refine ⟨fun v => (hpool v).2, fun r' j hl hj => ?_, fun r1 r2 j hl1 hl2 hw hj1 hj2 => ?_, fun v j hj => ?_⟩
  · rw [(hpool _).1]
    rcases eq_or_ne r' r with rfl | hne
    · rw [hself.2] at hj ⊢
      exact .inl ⟨rfl, (Option.some.inj hj).symm⟩
    · obtain ⟨h1, h2⟩ := hother r' hne
      rw [h1] at hl
      rw [h2] at hj ⊢
      exact .inr (h.lease r' j hl hj)
  · -- the index was free, so no other request had it
    have hfresh : ∀ r', r' ≠ r → (κ.stage r').Leases → (κ.request r').worker = (κ.request r).worker →
        (κ.request r').bufferIndex ≠ some k := by
      intro r' _ hl hw hk'
      have hleased := h.lease r' k hl hk'
      rw [hw] at hleased
      exact hk hleased
    rcases eq_or_ne r1 r with rfl | h1 <;> rcases eq_or_ne r2 r1 with rfl | h2
    · rfl
    · obtain ⟨hs2, hq2⟩ := hother r2 h2
      rw [hself.2] at hw hj1
      rw [hs2] at hl2
      rw [hq2] at hw hj2
      obtain rfl := Option.some.inj hj1
      exact absurd hj2 (hfresh r2 h2 hl2 hw.symm)
    · rfl
    · obtain ⟨hs1, hq1⟩ := hother r1 h1
      rw [hs1] at hl1
      rw [hq1] at hw hj1
      rcases eq_or_ne r2 r with rfl | h2'
      · rw [hself.2] at hw hj2
        obtain rfl := Option.some.inj hj2
        exact absurd hj1 (hfresh r1 h1 hl1 hw)
      · obtain ⟨hs2, hq2⟩ := hother r2 h2'
        rw [hs2] at hl2
        rw [hq2] at hw hj2
        exact h.alone r1 r2 j hl1 hl2 hw hj1 hj2
  · rcases ((hpool v).1 j).1 hj with ⟨rfl, rfl⟩ | hj
    · exact ⟨r, hself.1, by rw [hself.2], by rw [hself.2]⟩
    · obtain ⟨r', hl, hw, hb⟩ := h.owned v j hj
      have hne : r' ≠ r := by
        rintro rfl
        rw [hr] at hl
        exact hl
      obtain ⟨h1, h2⟩ := hother r' hne
      exact ⟨r', by rwa [h1], by rwa [h2], by rwa [h2]⟩

/-- A request gives its buffer back. -/
theorem release_pooled (h : Pooled κ) {t : Stage} {q : IoRequest} {k : Nat}
    (hl : (κ.stage r).Leases) (hk : (κ.request r).bufferIndex = some k) (ht : ¬ t.Leases)
    (hκ : κ'.stage = Function.update κ.stage r t ∧ κ'.request = Function.update κ.request r q ∧
      κ'.pool = Function.update κ.pool (κ.request r).worker
        (poolAfterRelease (κ.pool (κ.request r).worker) (some k))) : Pooled κ' := by
  obtain ⟨hstage, hreq, hpool⟩ := hκ
  obtain ⟨hwf, hnodup⟩ := h.pool (κ.request r).worker
  have hleased := h.lease r k hl hk
  have hafter : poolAfterRelease (κ.pool (κ.request r).worker) (some k) =
      { κ.pool (κ.request r).worker with
        inUse := (κ.pool (κ.request r).worker).inUse.set k false
        freeIndexes := k :: (κ.pool (κ.request r).worker).freeIndexes } := by
    rw [poolAfterRelease, SpdkBufferPool.release_leased hwf hleased]
  rw [hafter] at hpool
  have hleases : ∀ v j, (κ'.pool v).Leased j ↔ ¬ (v = (κ.request r).worker ∧ j = k) ∧ (κ.pool v).Leased j := by
    intro v j
    rw [hpool]
    rcases eq_or_ne v (κ.request r).worker with rfl | hv
    · rw [Function.update_self, SpdkBufferPool.leased_set_false, and_iff_right rfl]
    · rw [Function.update_of_ne hv]
      simp [hv]
  have hold : ∀ r', (κ'.stage r').Leases → r' ≠ r ∧ (κ.stage r').Leases ∧ κ'.request r' = κ.request r' := by
    intro r' hl'
    rcases eq_or_ne r' r with rfl | hne
    · rw [hstage, Function.update_self] at hl'
      exact absurd hl' ht
    · rw [hstage, Function.update_of_ne hne] at hl'
      exact ⟨hne, hl', by rw [hreq, Function.update_of_ne hne]⟩
  refine ⟨fun v => ?_, fun r' j hl' hj => ?_, fun r1 r2 j hl1 hl2 hw hj1 hj2 => ?_, fun v j hj => ?_⟩
  · rw [hpool]
    rcases eq_or_ne v (κ.request r).worker with rfl | hv
    · simpa using And.intro (hwf.released hleased) hnodup
    · simpa [hv] using h.pool v
  · obtain ⟨hne, hl1, hq⟩ := hold r' hl'
    rw [hq] at hj ⊢
    refine (hleases _ j).2 ⟨?_, h.lease r' j hl1 hj⟩
    rintro ⟨hw, rfl⟩
    exact hne (h.alone r' r j hl1 hl hw hj hk)
  · obtain ⟨-, hl1', hq1⟩ := hold r1 hl1
    obtain ⟨-, hl2', hq2⟩ := hold r2 hl2
    rw [hq1] at hw hj1
    rw [hq2] at hw hj2
    exact h.alone r1 r2 j hl1' hl2' hw hj1 hj2
  · obtain ⟨hnot, hj'⟩ := (hleases v j).1 hj
    obtain ⟨r', hl', hw, hb⟩ := h.owned v j hj'
    have hne : r' ≠ r := by
      rintro rfl
      exact hnot ⟨hw.symm, Option.some.inj (hb.symm.trans hk)⟩
    refine ⟨r', ?_, ?_, ?_⟩
    · rwa [hstage, Function.update_of_ne hne]
    · rwa [hreq, Function.update_of_ne hne]
    · rwa [hreq, Function.update_of_ne hne]

theorem fillPool_pooled (h : Pooled κ) {bufferSize bufferAlignment : Nat} {buffers : List Nat}
    (hini : (κ.pool w).initialized = false) (hnodup : buffers.Nodup) :
    Pooled { κ.setPool w (SpdkBufferPool.filled bufferSize bufferAlignment buffers) with
      dma := Function.update κ.dma w fun _ _ => 0 } := by
  have hnone : ∀ k, ¬ (κ.pool w).Leased k := by
    intro k hk
    rw [(h.pool w).1.leased_initialized hk] at hini
    cases hini
  refine ⟨fun v => ?_, fun r k hl hk => ?_, h.alone, fun v k hk => ?_⟩
  · rcases eq_or_ne v w with rfl | hv
    · simpa [SpdkBufferPool.filled] using ⟨SpdkBufferPool.filled_wf, hnodup⟩
    · simpa [hv] using h.pool v
  · have hleased := h.lease r k hl hk
    have hw : (κ.request r).worker ≠ w := by
      rintro rfl
      exact hnone k hleased
    simpa [hw] using hleased
  · rcases eq_or_ne v w with rfl | hv
    · simp only [Core.setPool, Function.update_self] at hk
      exact absurd hk (SpdkBufferPool.not_leased_filled k)
    · simp only [Core.setPool, ne_eq, hv, not_false_eq_true, Function.update_of_ne] at hk
      exact h.owned v k hk

/-- One move keeps the leases, if it releases no pool. -/
theorem move_pooled (h : Pooled κ) (hc : Consistent e κ) (hm : Move e κ κ') (hmarks : ¬ κ'.marks .released) :
    Pooled κ' := by
  cases hm with
  | submit b op items memory pc req hnew _ _ _ _ _ =>
    refine h.keep rfl (fun r => ?_) fun r hl => ?_
    · by_cases hr : r.1 = b ∧ r.2 < items.length
      · have habsent : κ.stage r = .absent := by
          rw [show r = (r.1, r.2) from rfl, hc.absent_iff, hr.1, hc.idle_items b hnew]
          exact Nat.zero_le _
        simp [hr, habsent, Stage.Leases]
      · simp [hr]
    · have hr : ¬ (r.1 = b ∧ r.2 < items.length) := by
        intro hr
        have habsent : κ.stage r = .absent := by
          rw [show r = (r.1, r.2) from rfl, hc.absent_iff, hr.1, hc.idle_items b hnew]
          exact Nat.zero_le _
        rw [habsent] at hl
        exact hl
      simp [hr]
  | post rs hrs =>
    refine h.keep rfl (fun r => ?_) fun _ _ => ⟨rfl, rfl⟩
    by_cases hr : r ∈ rs
    · simp [hr, hrs, Stage.Leases]
    · simp [hr]
  | note r q hq => exact h.turn (r := r) (t := κ.stage r) (by simp) rfl rfl Iff.rfl ⟨hq.1, hq.2.2.2.2.1⟩
  | accept r k free hr hini hfree => exact accept_pooled h hr hini hfree
  | transferWrite r c n hr _ _ =>
    exact h.turn (r := r) (q := κ.request r) rfl (by simp) rfl (by simp [hr, Stage.Leases]) ⟨rfl, rfl⟩
  | transferRead r c n hr _ _ =>
    exact h.turn (r := r) (q := κ.request r) rfl (by simp) rfl (by simp [hr, Stage.Leases]) ⟨rfl, rfl⟩
  | disturbWrite r c noise hr _ =>
    exact h.turn (r := r) (q := κ.request r) rfl (by simp) rfl (by simp [hr, Stage.Leases]) ⟨rfl, rfl⟩
  | disturbRead r c noise hr _ =>
    exact h.turn (r := r) (q := κ.request r) rfl (by simp) rfl (by simp [hr, Stage.Leases]) ⟨rfl, rfl⟩
  | report r c success hr _ => exact h.turn (r := r) rfl rfl rfl (by simp [hr, Stage.Leases]) ⟨rfl, rfl⟩
  | deliver r k hr _ hk _ =>
    refine release_pooled (t := .closing true) (q := { κ.request r with
      copied := some (κ.stagedBytes r k), bufferIndex := none }) h (by simp [hr, Stage.Leases]) hk id ⟨rfl, ?_, ?_⟩
    · simp [Core.copy, Core.finish]
    · simp [Core.copy, Core.finish, hk]
  | finish r success success' hr _ =>
    have hfits := hc.fits r
    rw [hr] at hfits
    obtain ⟨k, hk⟩ := Option.ne_none_iff_exists'.1 hfits.2.2.1
    refine release_pooled (t := .closing success') (q := { κ.request r with bufferIndex := none }) h
      (by simp [hr, Stage.Leases]) hk id ⟨rfl, rfl, ?_⟩
    simp [Core.finish, hk]
  | abandon r hr =>
    refine h.turn (r := r) (q := κ.request r) rfl (by simp) rfl ?_ ⟨rfl, rfl⟩
    rcases hr with hr | hr <;> simp [hr, Stage.Leases]
  | complete r success error hr => exact h.turn (r := r) rfl rfl rfl (by simp [hr, Stage.Leases]) ⟨rfl, rfl⟩
  | fillPool w bufferSize bufferAlignment buffers hini hnodup => exact fillPool_pooled h hini hnodup
  | releasePool w => exact absurd (.inr ⟨rfl, trivial⟩) hmarks
  | scribble | caller => exact h.keep rfl (fun _ => Iff.rfl) fun _ _ => ⟨rfl, rfl⟩

theorem marks_grow (hm : Move e κ κ') {m : Mark} (h : κ.marks m) : κ'.marks m := by
  cases hm with
  | submit | post | releasePool => exact .inl h
  | _ => exact h

theorem moves_pooled (h : Pooled κ) (hc : Consistent e κ) (hm : Moves e κ κ') (hmarks : ¬ κ'.marks .released) :
    Pooled κ' := by
  induction hm with
  | refl => exact h
  | tail hm hlast ih =>
    exact move_pooled (ih fun hr => hmarks (marks_grow hlast hr)) (moves_consistent hc hm) hlast hmarks

end SpdkBdevContext
end SpdkConnector
