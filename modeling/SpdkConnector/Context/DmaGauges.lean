import SpdkConnector.Context.PoolsEmptied

/-!
# The DMA gauges are exact

Each worker's own operations on the gauge of what is in use add up to its leases (`Booked.leased`), and stay
within the size of its pool: that much is known of a worker whatever the others do, and the gauges are exact
with it in every order of the operations. Before the teardown the capacities are the pools that exist; once it
has started no pool is set up, and the capacities stay what they were.

| here | there (spdk_bdev_context.cpp) |
| --- | --- |
| `poolSize` | `io_segment_size * spdk_buffer_count` of an initialised worker (:466) |
| `leases` | the flags set in `in_use_` of its pool (spdk_buffer_pool.cpp:91) |
-/

namespace SpdkConnector
namespace SpdkBufferPool

variable {p : SpdkBufferPool} {i : Nat}

/-- The buffers leased. -/
def leases (p : SpdkBufferPool) : Nat := p.inUse.count true

/-- The bytes of the buffers of an initialised pool. -/
def poolSize (p : SpdkBufferPool) : Nat := if p.initialized then p.bufferSize * p.buffers.length else 0

@[simp] theorem leases_empty : leases {} = 0 := rfl

@[simp] theorem poolSize_empty : poolSize {} = 0 := rfl

theorem leases_filled (size alignment : Nat) (buffers : List Nat) : leases (filled size alignment buffers) = 0 :=
  List.count_eq_zero.2 fun h => Bool.noConfusion (List.eq_of_mem_replicate h)

theorem WF.leases_le (h : p.WF) : p.leases ≤ p.buffers.length := by
  rw [← h.lengths]
  exact List.count_le_length

theorem leases_acquired (h : p.WF) {free : List Nat} (hfree : p.freeIndexes = i :: free) :
    leases { p with freeIndexes := free, inUse := p.inUse.set i true } = p.leases + 1 := by
  obtain ⟨hlt, hi⟩ := (h.free_iff i).1 (hfree ▸ List.mem_cons_self)
  have hlt : i < p.inUse.length := h.lengths ▸ hlt
  have hfalse : p.inUse[i] = false := by simpa [Leased, hlt] using hi
  simp [leases, List.count_set, hlt, hfalse]

theorem leases_released (h : p.WF) (hi : p.Leased i) (free : List Nat) :
    leases { p with inUse := p.inUse.set i false, freeIndexes := free } + 1 = p.leases := by
  have hlt : i < p.inUse.length := h.lengths ▸ h.leased_lt hi
  have htrue : p.inUse[i] = true := by simpa [Leased, hlt] using hi
  have hpos : 0 < p.inUse.count true := List.count_pos_iff.2 (htrue ▸ List.getElem_mem hlt)
  simp only [leases, List.count_set hlt, htrue]
  simp
  omega

/-- A pool with a free buffer has one that is not leased. -/
theorem WF.leases_lt (h : p.WF) (hini : p.initialized = true) (hfree : p.freeIndexes ≠ []) :
    p.leases < p.buffers.length := by
  obtain ⟨k, rest, hk⟩ := List.exists_cons_of_ne_nil hfree
  have hle := (h.acquired hk hini).leases_le
  rw [leases_acquired h hk] at hle
  exact hle

end SpdkBufferPool

namespace SpdkBdevContext

open Interleaving

variable {e : Env} {s s' : Sys} {ζ : Core} {κ : Cycle} {cap : Nat → Nat} {uses gets : List (Nat × GaugeOp)} {started : Bool}
  {t : Stock} {w v : Nat}

/-- What one worker's pool is changed to, the sum of all counts in its place. -/
theorem sum_update {S : Finset Nat} (f : Nat → Nat) (b : Nat) (hw : w ∈ S) :
    ∑ v ∈ S, Function.update f w b v + f w = ∑ v ∈ S, f v + b := by
  rw [← Finset.add_sum_erase S _ hw, ← Finset.add_sum_erase S f hw, Function.update_self]
  have hothers : ∑ v ∈ S.erase w, Function.update f w b v = ∑ v ∈ S.erase w, f v :=
    Finset.sum_congr rfl fun v hv => Function.update_of_ne (Finset.ne_of_mem_erase hv) _ _
  omega

/-- The bytes of all pools. -/
def Stock.total (e : Env) (t : Stock) : Nat := ∑ w ∈ Finset.range e.reactors, (t.pool w).poolSize

/-- The buffers that `spdk_dma_zmalloc` has returned lie apart from each other in the address space. -/
def Addressable (e : Env) (s : Sys) : Action → Prop
  | .reactor w (.setUp onReactor channel obtained) =>
    (onReactor && channel && (fillPool e s w obtained).1.toBool) = true →
    (stock s).total e + e.geometry.ioSegmentSize * e.geometry.spdkBufferCount < 2 ^ 64
  | _ => True

instance (e : Env) (s : Sys) (a : Action) : Decidable (Addressable e s a) := by
  unfold Addressable
  split <;> infer_instance

/-! ## The books -/

/-- The gauges of a stock and the operations they come from, where `cap` is what each worker's pool holds, or held
when the teardown started. -/
structure Booked (e : Env) (cap : Nat → Nat) (uses gets : List (Nat × GaugeOp)) (started : Bool) (t : Stock) : Prop where
  leased : ∀ w, (t.pool w).initialized = true →
    balance (ownOps w uses) = (e.geometry.ioSegmentSize * (t.pool w).leases : Nat)
  sized : ∀ w, (t.pool w).initialized = true → w ∈ Finset.range e.reactors ∧
    e.geometry.ioSegmentSize * (t.pool w).buffers.length = (t.pool w).poolSize ∧ cap w = (t.pool w).poolSize
  bytes : ∀ w, t.bytes w = (t.pool w).poolSize
  fresh : started = false → ∀ w, cap w = (t.pool w).poolSize
  fits : ∑ w ∈ Finset.range e.reactors, cap w < 2 ^ 64
  bounded : Bounded cap uses
  raised : ∀ w, raises false (ownOps w uses) = true
  named : ∀ x ∈ uses, x.1 ∈ Finset.range e.reactors ∧ x.2 ≠ .clear
  inUse : t.inUse = (Gauge.run (2 ^ 64) uses).value
  peak : t.peak = (Gauge.run (2 ^ 64) uses).peak
  allocated : t.allocated = (Gauge.run (2 ^ 64) gets).value
  within : Within (2 ^ 64) gets
  total : balance gets = (t.total e : Nat)
  gotten : started = false → Bounded (fun w => (t.pool w).poolSize) gets ∧
    ∀ x ∈ gets, x.1 ∈ Finset.range e.reactors ∧ x.2 ≠ .clear

/-- The teardown starts. -/
theorem Booked.start (h : Booked e cap uses gets started t) (started' : Bool) (hs : started' = false → started = false) :
    Booked e cap uses gets started' t :=
  { h with
    fresh := fun hno => h.fresh (hs hno)
    gotten := fun hno => h.gotten (hs hno) }

theorem init_stock (device : Nat → UInt8) : stock (Sys.init device) = ⟨fun _ => {}, fun _ => 0, 0, 0, 0⟩ := by
  have hreactor : ∀ w, ((Sys.init device).reactor w).pool = {} ∧ ((Sys.init device).reactor w).dmaPoolAllocatedBytes = 0 := by
    intro w
    unfold Sys.init
    dsimp only
    split <;> exact ⟨rfl, rfl⟩
  simp only [stock, hreactor]
  rfl

theorem init_booked (e : Env) (device : Nat → UInt8) :
    Booked e (fun _ => 0) [] [] false (stock (Sys.init device)) := by
  rw [init_stock]
  exact {
    leased := fun w hini => by cases hini
    sized := fun w hini => by cases hini
    bytes := fun w => rfl
    fresh := fun _ w => rfl
    fits := by simp
    bounded := bounded_nil _
    raised := fun w => rfl
    named := fun x hx => by cases hx
    inUse := rfl
    peak := rfl
    allocated := rfl
    within := within_nil (by decide)
    total := by simp [Stock.total]
    gotten := fun _ => ⟨bounded_nil _, fun x hx => by cases hx⟩ }

/-- The gauge of what is in use is exact. -/
theorem Booked.within_uses (h : Booked e cap uses gets started t) : Within (2 ^ 64) uses :=
  h.bounded.within _ h.named h.fits

/-! ## Leases -/

/-- Worker `w`'s operations on the gauge, beside what they do to its pool. -/
theorem Booked.use {p : SpdkBufferPool} {ops : List (Nat × GaugeOp)} {inUse peak : Nat}
    (h : Booked e cap uses gets started t) (hini : (t.pool w).initialized = true) (hp : p.initialized = true)
    (hsize : p.bufferSize = (t.pool w).bufferSize) (hbuffers : p.buffers = (t.pool w).buffers)
    (hops : ∀ x ∈ ops, x.1 = w ∧ x.2 ≠ .clear) (hraises : raises false ops = true)
    (hbounded : Bounded cap (uses ++ ops))
    (hleased : balance (ownOps w (uses ++ ops)) = (e.geometry.ioSegmentSize * p.leases : Nat))
    (hinUse : inUse = (Gauge.run (2 ^ 64) (uses ++ ops)).value)
    (hpeak : peak = (Gauge.run (2 ^ 64) (uses ++ ops)).peak) :
    Booked e cap (uses ++ ops) gets started { t with pool := Function.update t.pool w p, inUse, peak } := by
  have hpool : ∀ v, (Function.update t.pool w p v).initialized = (t.pool v).initialized ∧
      (Function.update t.pool w p v).buffers = (t.pool v).buffers ∧
      (Function.update t.pool w p v).poolSize = (t.pool v).poolSize := by
    intro v
    by_cases hv : v = w
    · subst hv
      rw [Function.update_self]
      exact ⟨hp.trans hini.symm, hbuffers, by simp [SpdkBufferPool.poolSize, hp, hini, hsize, hbuffers]⟩
    · rw [Function.update_of_ne hv]
      exact ⟨rfl, rfl, rfl⟩
  refine { h with leased := ?_, sized := ?_, bytes := ?_, fresh := ?_, bounded := hbounded, raised := ?_, named := ?_,
                  inUse := hinUse, peak := hpeak, total := ?_, gotten := ?_ }
  · intro v hv
    by_cases hvw : v = w
    · subst hvw
      simpa using hleased
    · rw [ownOps_append, ownOps_none (fun x hx => (hops x hx).1) (Ne.symm hvw), List.append_nil]
      dsimp only at hv ⊢
      rw [Function.update_of_ne hvw] at hv ⊢
      exact h.leased v hv
  · intro v hv
    obtain ⟨h1, h2, h3⟩ := hpool v
    dsimp only
    rw [h2, h3]
    exact h.sized v (h1 ▸ hv)
  · intro v
    exact (h.bytes v).trans (hpool v).2.2.symm
  · intro hs v
    exact (h.fresh hs v).trans (hpool v).2.2.symm
  · intro v
    rw [ownOps_append]
    by_cases hvw : w = v
    · subst hvw
      rw [ownOps_mine fun x hx => (hops x hx).1]
      exact raises_concat false (h.raised w) hraises
    · rw [ownOps_none (fun x hx => (hops x hx).1) hvw, List.append_nil]
      exact h.raised v
  · intro x hx
    rcases List.mem_append.1 hx with hx | hx
    · exact h.named x hx
    · exact ⟨(hops x hx).1 ▸ (h.sized w hini).1, (hops x hx).2⟩
  · rw [h.total]
    simp only [Stock.total, hpool]
  · intro hs
    simp only [hpool]
    exact h.gotten hs

/-- A free buffer fits in what the worker's pool holds. -/
theorem Booked.room (h : Booked e cap uses gets started t) (hwf : (t.pool w).WF) (hini : (t.pool w).initialized = true)
    (hfree : (t.pool w).freeIndexes ≠ []) :
    balance (ownOps w uses) + (e.geometry.ioSegmentSize : Nat) ≤ cap w := by
  obtain ⟨-, hsize, hcap⟩ := h.sized w hini
  have hlt : (t.pool w).leases + 1 ≤ (t.pool w).buffers.length := hwf.leases_lt hini hfree
  have hle := Nat.mul_le_mul_left e.geometry.ioSegmentSize hlt
  rw [h.leased w hini, hcap, ← hsize]
  rw [Nat.mul_add_one] at hle
  exact_mod_cast hle

theorem Booked.lease (h : Booked e cap uses gets started t) (hwf : (t.pool w).WF) {k : Nat} {free : List Nat}
    (hini : (t.pool w).initialized = true) (hfree : (t.pool w).freeIndexes = k :: free) :
    Booked e cap (uses ++ [(w, .add e.geometry.ioSegmentSize), (w, .raise)]) gets started
      (t.lease e w { t.pool w with freeIndexes := free, inUse := (t.pool w).inUse.set k true }) := by
  have hroom := h.room hwf hini (hfree ▸ List.cons_ne_nil _ _)
  have hrun : Gauge.run (2 ^ 64) (uses ++ [(w, .add e.geometry.ioSegmentSize), (w, .raise)]) =
      ((Gauge.run (2 ^ 64) uses).apply (2 ^ 64) (w, .add e.geometry.ioSegmentSize)).apply (2 ^ 64) (w, .raise) :=
    Gauge.run_append _ _
  refine h.use hini hini rfl rfl (by simp) rfl (h.bounded.add hroom) ?_ ?_ ?_
  · rw [ownOps_append, balance_append, h.leased w hini, SpdkBufferPool.leases_acquired hwf hfree, Nat.mul_add_one]
    simp [ownOps, GaugeOp.settle]
  · rw [hrun]
    simp [Gauge.apply, add64, h.inUse]
  · rw [hrun]
    simp [Gauge.apply, add64, h.inUse, h.peak]

/-- A lease that is given back where it was taken. -/
theorem Booked.bounce (h : Booked e cap uses gets started t) (hwf : (t.pool w).WF) (pool : SpdkBufferPool)
    (hini : (t.pool w).initialized = true) (hfree : (t.pool w).freeIndexes ≠ []) :
    Booked e cap (uses ++ [(w, .add e.geometry.ioSegmentSize), (w, .raise), (w, .sub e.geometry.ioSegmentSize)]) gets
      started ((t.lease e w pool).giveBack e w (t.pool w)) := by
  have hroom := h.room hwf hini hfree
  have hadd := h.bounded.add hroom
  have hsplit : uses ++ [(w, .add e.geometry.ioSegmentSize), (w, .raise), (w, .sub e.geometry.ioSegmentSize)] =
      uses ++ [(w, .add e.geometry.ioSegmentSize), (w, .raise)] ++ [(w, .sub e.geometry.ioSegmentSize)] := by simp
  have hown : balance (ownOps w (uses ++ [(w, .add e.geometry.ioSegmentSize), (w, .raise)])) =
      balance (ownOps w uses) + (e.geometry.ioSegmentSize : Nat) := by
    rw [ownOps_append, balance_append]
    simp [ownOps, GaugeOp.settle]
  have hrun : Gauge.run (2 ^ 64) (uses ++ [(w, .add e.geometry.ioSegmentSize), (w, .raise),
      (w, .sub e.geometry.ioSegmentSize)]) = (((Gauge.run (2 ^ 64) uses).apply (2 ^ 64)
        (w, .add e.geometry.ioSegmentSize)).apply (2 ^ 64) (w, .raise)).apply (2 ^ 64) (w, .sub e.geometry.ioSegmentSize) :=
    Gauge.run_append _ _
  have hbooked : Booked e cap (uses ++ [(w, .add e.geometry.ioSegmentSize), (w, .raise),
      (w, .sub e.geometry.ioSegmentSize)]) gets started { t with
        pool := Function.update t.pool w (t.pool w)
        inUse := sub64 (add64 t.inUse e.geometry.ioSegmentSize) e.geometry.ioSegmentSize
        peak := max t.peak (add64 t.inUse e.geometry.ioSegmentSize) } := by
    refine h.use hini hini rfl rfl (by simp) rfl ?_ ?_ ?_ ?_
    · rw [hsplit]
      have hpos := (h.bounded w _ List.prefix_rfl).1
      exact hadd.sub (by rw [hown]; omega)
    · rw [hsplit, ownOps_append, balance_append, hown, h.leased w hini]
      simp [ownOps, GaugeOp.settle]
    · rw [hrun]
      simp [Gauge.apply, add64, sub64, h.inUse]
    · rw [hrun]
      simp [Gauge.apply, add64, h.inUse, h.peak]
  simpa only [Stock.giveBack, Stock.lease, Function.update_idem] using hbooked

theorem Booked.giveBack (h : Booked e cap uses gets started t) (hwf : (t.pool w).WF) {k : Nat}
    (hl : (t.pool w).Leased k) :
    Booked e cap (uses ++ [(w, .sub e.geometry.ioSegmentSize)]) gets started
      (t.giveBack e w { t.pool w with
        inUse := (t.pool w).inUse.set k false, freeIndexes := k :: (t.pool w).freeIndexes }) := by
  have hini := hwf.leased_initialized hl
  have hleases := SpdkBufferPool.leases_released hwf hl (k :: (t.pool w).freeIndexes)
  have hown := h.leased w hini
  rw [← hleases, Nat.mul_add_one] at hown
  refine h.use hini hini rfl rfl (by simp) rfl (h.bounded.sub ?_) ?_ ?_ ?_
  · rw [hown]
    push_cast
    exact le_add_of_nonneg_left (by positivity)
  · rw [ownOps_append, ownOps_self, balance_concat, hown]
    simp [GaugeOp.settle]
  · rw [Gauge.run_concat]
    simp [Gauge.apply, sub64, h.inUse]
  · rw [Gauge.run_concat]
    simp [Gauge.apply, h.peak]

/-! ## Pools -/

/-- One pool more or less, and its size with it. -/
theorem total_pool (t : Stock) (p : SpdkBufferPool) (hw : w ∈ Finset.range e.reactors) :
    ∑ v ∈ Finset.range e.reactors, (Function.update t.pool w p v).poolSize + (t.pool w).poolSize =
      t.total e + p.poolSize := by
  have hsizes : ∀ v, (Function.update t.pool w p v).poolSize =
      Function.update (fun v => (t.pool v).poolSize) w p.poolSize v :=
    Function.apply_update (fun _ => SpdkBufferPool.poolSize) t.pool w p
  simp only [hsizes]
  exact sum_update (fun v => (t.pool v).poolSize) p.poolSize hw

theorem poolSize_uninitialized {p : SpdkBufferPool} (h : p.initialized = false) : p.poolSize = 0 := by
  simp [SpdkBufferPool.poolSize, h]

theorem Booked.fill (h : Booked e cap uses gets false t) (hini : (t.pool w).initialized = false)
    (hw : w ∈ Finset.range e.reactors)
    (haddressable : t.total e + e.geometry.ioSegmentSize * e.geometry.spdkBufferCount < 2 ^ 64) :
    Booked e (Function.update cap w e.poolBytes) uses (gets ++ [(w, .add e.poolBytes)]) false
      (t.fill e w (SpdkBufferPool.filled e.geometry.ioSegmentSize e.geometry.bufferAlignment
        (List.range e.geometry.spdkBufferCount))) := by
  have hbytes : e.poolBytes = e.geometry.ioSegmentSize * e.geometry.spdkBufferCount := mul64_exact (by omega)
  have hsize : (SpdkBufferPool.filled e.geometry.ioSegmentSize e.geometry.bufferAlignment
      (List.range e.geometry.spdkBufferCount)).poolSize = e.poolBytes := by
    simp [SpdkBufferPool.poolSize, SpdkBufferPool.filled, hbytes]
  have hnone := poolSize_uninitialized hini
  have hcap : cap w = 0 := (h.fresh rfl w).trans hnone
  have htotal := total_pool t (SpdkBufferPool.filled e.geometry.ioSegmentSize e.geometry.bufferAlignment
    (List.range e.geometry.spdkBufferCount)) hw
  rw [hnone, hsize, Nat.add_zero] at htotal
  have hcaps : ∑ v ∈ Finset.range e.reactors, cap v = t.total e := Finset.sum_congr rfl fun v _ => h.fresh rfl v
  have hgets := h.gotten rfl
  have hmono : ∀ v, (t.pool v).poolSize ≤ ((t.fill e w (SpdkBufferPool.filled e.geometry.ioSegmentSize
      e.geometry.bufferAlignment (List.range e.geometry.spdkBufferCount))).pool v).poolSize := by
    intro v
    simp only [Stock.fill]
    by_cases hv : v = w
    · subst hv
      rw [hnone]
      exact Nat.zero_le _
    · rw [Function.update_of_ne hv]
  -- the worker has counted no pool before
  have hown : balance (ownOps w gets) = 0 := by
    have hbound := hgets.1 w _ List.prefix_rfl
    dsimp only at hbound
    rw [hnone] at hbound
    omega
  refine { h with leased := ?_, sized := ?_, bytes := ?_, fresh := ?_, fits := ?_, bounded := ?_, allocated := ?_,
                  within := ?_, total := ?_, gotten := ?_ }
  · intro v hv
    by_cases hvw : v = w
    · subst hvw
      have hbound := h.bounded v _ List.prefix_rfl
      rw [hcap] at hbound
      simp only [Stock.fill, Function.update_self, SpdkBufferPool.leases_filled]
      omega
    · simp only [Stock.fill, Function.update_of_ne hvw] at hv ⊢
      exact h.leased v hv
  · intro v hv
    by_cases hvw : v = w
    · subst hvw
      simp only [Stock.fill, Function.update_self, hsize]
      exact ⟨hw, by simp [SpdkBufferPool.filled, hbytes], trivial⟩
    · simp only [Stock.fill, Function.update_of_ne hvw] at hv ⊢
      exact h.sized v hv
  · intro v
    by_cases hvw : v = w
    · subst hvw
      simp only [Stock.fill, Function.update_self, hsize]
    · simp only [Stock.fill, Function.update_of_ne hvw]
      exact h.bytes v
  · intro _ v
    by_cases hvw : v = w
    · subst hvw
      simp only [Stock.fill, Function.update_self, hsize]
    · simp only [Stock.fill, Function.update_of_ne hvw]
      exact h.fresh rfl v
  · have hsum := sum_update cap e.poolBytes hw
    omega
  · refine h.bounded.mono fun v => ?_
    by_cases hvw : v = w
    · subst hvw
      rw [hcap]
      exact Nat.zero_le _
    · rw [Function.update_of_ne hvw]
  · rw [Gauge.run_concat]
    simp [Stock.fill, Gauge.apply, add64, h.allocated]
  · refine h.within.concat ?_
    rw [balance_concat, h.total]
    simp only [GaugeOp.settle]
    omega
  · rw [balance_concat, h.total]
    simp only [GaugeOp.settle, Stock.total, Stock.fill] at htotal ⊢
    omega
  · intro _
    refine ⟨(hgets.1.mono hmono).concat ?_, fun x hx => ?_⟩
    · dsimp only
      rw [hown]
      simp only [GaugeOp.settle, Stock.fill, Function.update_self, hsize]
      omega
    · rcases List.mem_append.1 hx with hx | hx
      · exact hgets.2 x hx
      · obtain rfl := List.mem_singleton.1 hx
        exact ⟨hw, by simp⟩

/-- The `fetch_sub` of a pool that is released, on any thread. -/
theorem Booked.drop (h : Booked e cap uses gets true t) (w v : Nat) :
    Booked e cap uses (gets ++ if t.bytes v ≠ 0 then [(w, .sub (t.bytes v))] else []) true (t.drop v) := by
  have hleft : ∀ u, u ≠ v → (t.drop v).pool u = t.pool u := fun u hu => Function.update_of_ne hu _ _
  have hgone : (t.drop v).pool v = {} := Function.update_self _ _ _
  have hpool : ∀ u, ((t.drop v).pool u).initialized = true → (t.drop v).pool u = t.pool u := by
    intro u hu
    by_cases huv : u = v
    · subst huv
      rw [hgone] at hu
      cases hu
    · exact hleft u huv
  have htotal : (t.drop v).total e + t.bytes v = t.total e := by
    rw [h.bytes v]
    by_cases hv : v ∈ Finset.range e.reactors
    · simpa [Stock.total, Stock.drop] using total_pool t {} hv
    · -- only a worker's pool has a size
      have hnone : (t.pool v).poolSize = 0 := by
        refine poolSize_uninitialized ?_
        by_contra hini
        exact hv (h.sized v (by simpa using hini)).1
      rw [hnone, Nat.add_zero]
      unfold Stock.total
      refine Finset.sum_congr rfl fun u hu => ?_
      rw [hleft u fun huv => hv (huv ▸ hu)]
  have hrange := h.within gets List.prefix_rfl
  rw [h.total] at hrange
  refine { h with leased := ?_, sized := ?_, bytes := ?_, fresh := by simp, allocated := ?_, within := ?_, total := ?_,
                  gotten := (by simp) }
  · intro u hu
    have hold := hpool u hu
    rw [hold] at hu ⊢
    exact h.leased u hu
  · intro u hu
    have hold := hpool u hu
    rw [hold] at hu ⊢
    exact h.sized u hu
  · intro u
    by_cases huv : u = v
    · subst huv
      rw [hgone]
      exact Function.update_self _ _ _
    · rw [hleft u huv]
      exact (Function.update_of_ne huv _ _).trans (h.bytes u)
  · by_cases hb : t.bytes v ≠ 0
    · rw [if_pos hb, Gauge.run_concat]
      simp [Stock.drop, hb, Gauge.apply, sub64, h.allocated]
    · rw [if_neg hb, List.append_nil]
      simp only [Stock.drop, if_neg hb]
      exact h.allocated
  · by_cases hb : t.bytes v ≠ 0
    · rw [if_pos hb]
      refine h.within.concat ?_
      rw [balance_concat, h.total]
      simp only [GaugeOp.settle]
      omega
    · rw [if_neg hb, List.append_nil]
      exact h.within
  · by_cases hb : t.bytes v ≠ 0
    · rw [if_pos hb, balance_concat, h.total]
      simp only [GaugeOp.settle]
      omega
    · rw [if_neg hb, List.append_nil, h.total]
      omega

/-! ## Steps -/

theorem Path.workers (h : Path e κ) : κ.ctx.ioWorkers ≤ e.reactors := by
  cases h with
  | opening h =>
    rw [h.workers]
    exact Nat.zero_le _
  | opened ho h => exact ho.workers.trans (le_max_right _ _)

/-- **One step of the books.** The gauge is cleared by `finish_shutdown_on_app_thread` alone. -/
theorem Booked.step (h : Booked e cap uses gets s.ctx.shutdownStarted (stock s)) (ht : Tracks s ζ) (hc : Consistent e ζ)
    (hord : Ordered s.cycle) {a : Action} (haddressable : Addressable e s a)
    (hfill : ∀ w, .initializeIoWorker ∈ s.cycle.agenda w → w ∈ Finset.range e.reactors ∧ s.ctx.shutdownStarted = false)
    (hs : step e s a = some s') :
    (∃ cap', Booked e cap' (uses ++ inUseOps e s a) (gets ++ allocatedOps e s a) s'.ctx.shutdownStarted (stock s')) ∨
    ∃ w, .releaseDescriptor ∈ s.cycle.agenda w ∧ inUseOps e s a = [(w, .clear)] ∧ allocatedOps e s a = [] ∧
      stock s' = { stock s with inUse := 0 } := by
  have hmono := (turn_calm hord.calm (step_turn hs)).1
  have hwf : ∀ w, ((stock s).pool w).WF := fun w => (ht.tidy.reactor w).pool
  have hmem : ∀ {w f rest}, (s.reactor w).stack = .life f :: rest → f ∈ s.cycle.agenda w := fun hst =>
    stack_agenda (by rw [hst]; exact List.mem_cons_self)
  have hd := step_dealt ht hc hs
  generalize inUseOps e s a = us, allocatedOps e s a = gs, stock s' = t at hd
  cases hd with
  | quiet =>
    simp only [List.append_nil]
    exact .inl ⟨cap, h.start _ hmono⟩
  | leased w c k free hini hfree =>
    rw [List.append_nil]
    exact .inl ⟨cap, (h.lease (hwf w) hini hfree).start _ hmono⟩
  | bounced w c pool hini hfree =>
    rw [List.append_nil]
    exact .inl ⟨cap, (h.bounce (hwf w) pool hini hfree).start _ hmono⟩
  | returned w c k hl =>
    rw [List.append_nil]
    exact .inl ⟨cap, (h.giveBack (hwf w) hl).start _ hmono⟩
  | filled w obtained onReactor channel rest hst hini hready hok =>
    obtain ⟨hw, hno⟩ := hfill w (hmem hst)
    rw [List.append_nil]
    rw [hno] at h
    exact .inl ⟨_, (h.fill hini hw (haddressable (Bool.and_eq_true_iff.2 ⟨hready, hok⟩))).start _ fun _ => rfl⟩
  | dropped w v c f rest hst hf =>
    -- no pool is released before the teardown starts
    have hstarted : s.ctx.shutdownStarted = true := by
      by_contra hno
      refine hord.calm (Bool.eq_false_iff.2 hno) w f (hmem hst) ?_
      rcases hf with ⟨rfl, -⟩ | rfl
      · trivial
      · trivial
    rw [List.append_nil]
    rw [hstarted] at h hmono
    exact .inl ⟨cap, (h.drop w v).start _ hmono⟩
  | cleared w rest hst => exact .inr ⟨w, hmem hst, rfl, rfl, rfl⟩

/-! ## Before the teardown -/

/-- The books of a run that may be before the teardown. -/
structure Kept (e : Env) (uses gets : List (Nat × GaugeOp)) (s : Sys) : Prop where
  path : Path e s.cycle
  ordered : Ordered s.cycle
  hosted : ∀ i, s.Pooled i → i < s.ctx.ioWorkers
  booked : s.ctx.shutdownStarted = false → ∃ cap, Booked e cap uses gets false (stock s)

theorem init_kept (e : Env) (device : Nat → UInt8) : Kept e [] [] (Sys.init device) where
  path := .opening (init_opening device)
  ordered := init_ordered device
  hosted i hi := by
    have hi : ((stock (Sys.init device)).pool i).initialized = true := hi
    rw [init_stock] at hi
    cases hi
  booked _ := ⟨_, init_booked e device⟩

theorem Path.filling (h : Path e κ) (hf : .initializeIoWorker ∈ κ.agenda v) : v ∈ Finset.range e.reactors := by
  cases h with
  | opening h => exact (h.early hf).2.elim
  | opened ho h => exact Finset.mem_range.2 (ho.confined v _ hf).1

theorem Path.released (h : Path e κ) (hf : .releaseDescriptor ∈ κ.agenda v) : κ.ctx.shutdownStarted = true := by
  cases h with
  | opening h => exact (h.early hf).2.elim
  | opened ho h => exact (h.last v hf).1

theorem kept_step (hn : 0 < e.ioThreadCount) (h : Kept e uses gets s) (ht : Tracks s ζ) (hc : Consistent e ζ) {a : Action}
    (haddressable : Addressable e s a) (hs : step e s a = some s') :
    Kept e (uses ++ inUseOps e s a) (gets ++ allocatedOps e s a) s' := by
  have hturn := step_turn hs
  refine ⟨path_step hn h.path h.ordered hs, h.ordered.turn hturn, h.path.hosted h.hosted ht hc hs, fun hno => ?_⟩
  have hbefore := (turn_calm h.ordered.calm hturn).1 hno
  obtain ⟨cap, hbooked⟩ := h.booked hbefore
  rw [← hbefore] at hbooked
  rcases hbooked.step ht hc h.ordered haddressable (fun w hw => ⟨h.path.filling hw, hbefore⟩) hs with
    ⟨cap', hnew⟩ | ⟨w, hw, -⟩
  · rw [hno] at hnew
    exact ⟨cap', hnew⟩
  · exact nomatch hbefore.symm.trans (h.path.released hw)

/-- The two gauges of a state with `uses` and `gets` behind it, as long as no teardown has started. -/
structure ExactGauges (s : Sys) (segment : Nat) (uses gets : List (Nat × GaugeOp)) : Prop where
  inUse : s.metrics.dmaBufferPoolInUseBytes =
    segment * ∑ w ∈ Finset.range s.ctx.ioWorkers, (s.reactor w).pool.leases
  inUse_le : s.metrics.dmaBufferPoolInUseBytes ≤ s.metrics.dmaBufferPoolAllocatedBytes
  allocated : s.metrics.dmaBufferPoolAllocatedBytes =
    ∑ w ∈ Finset.range s.ctx.ioWorkers, (s.reactor w).pool.poolSize
  peak : IsGreatest (Gauge.values (2 ^ 64) uses) s.metrics.dmaBufferPoolPeakInUseBytes
  /-- The same of the operations in any other order that keeps each thread's own. -/
  anyUses : ∀ ops, Reordered uses ops → Within (2 ^ 64) ops ∧
    (Gauge.run (2 ^ 64) ops).value = s.metrics.dmaBufferPoolInUseBytes ∧
    IsGreatest (Gauge.values (2 ^ 64) ops) (Gauge.run (2 ^ 64) ops).peak
  anyGets : ∀ ops, Reordered gets ops → Within (2 ^ 64) ops ∧
    (Gauge.run (2 ^ 64) ops).value = s.metrics.dmaBufferPoolAllocatedBytes

/-- Counts of the pools are counts of the workers' pools. -/
theorem sum_workers (h : Path e s.cycle) (f : Nat → Nat) (hf : ∀ w, s.ctx.ioWorkers ≤ w → f w = 0) :
    ∑ w ∈ Finset.range e.reactors, f w = ∑ w ∈ Finset.range s.ctx.ioWorkers, f w := by
  refine (Finset.sum_subset (Finset.range_mono h.workers) fun w _ hw => ?_).symm
  exact hf w (Nat.not_lt.1 fun hlt => hw (Finset.mem_range.2 hlt))

theorem Kept.exact (h : Kept e uses gets s) (ht : Tracks s ζ) (hno : s.ctx.shutdownStarted = false) :
    ExactGauges s e.geometry.ioSegmentSize uses gets := by
  obtain ⟨cap, hb⟩ := h.booked hno
  have hwf : ∀ w, (s.reactor w).pool.WF := fun w => (ht.tidy.reactor w).pool
  have hidle : ∀ w, ¬ s.Pooled w → (s.reactor w).pool = {} := fun w hw => (hwf w).emptied (Bool.eq_false_iff.2 hw)
  have hempty : ∀ w, s.ctx.ioWorkers ≤ w → (s.reactor w).pool = {} := fun w hw =>
    hidle w fun hi => absurd (h.hosted w hi) (Nat.not_lt.2 hw)
  have hleases := sum_workers h.path (fun w => (s.reactor w).pool.leases) fun w hw => by simp [hempty w hw]
  have hsizes := sum_workers h.path (fun w => (s.reactor w).pool.poolSize) fun w hw => by simp [hempty w hw]
  -- each worker's operations add up to its leases
  have hown : ∀ w, balance (ownOps w uses) = (e.geometry.ioSegmentSize * (s.reactor w).pool.leases : Nat) := by
    intro w
    by_cases hw : s.Pooled w
    · exact hb.leased w hw
    · have hbound := hb.bounded w _ List.prefix_rfl
      have hcap : cap w = 0 := (hb.fresh rfl w).trans (by simp [stock, hidle w hw])
      rw [hidle w hw, SpdkBufferPool.leases_empty]
      omega
  have hbalance : balance uses = (e.geometry.ioSegmentSize * ∑ w ∈ Finset.range e.reactors,
      (s.reactor w).pool.leases : Nat) := by
    rw [balance_threads _ hb.named, Finset.mul_sum, Nat.cast_sum]
    exact Finset.sum_congr rfl fun w _ => hown w
  have hvalue := Gauge.run_value hb.within_uses
  rw [← hb.inUse, hbalance] at hvalue
  have hinUse : s.metrics.dmaBufferPoolInUseBytes = e.geometry.ioSegmentSize *
      ∑ w ∈ Finset.range e.reactors, (s.reactor w).pool.leases := by exact_mod_cast hvalue
  have hgets := Gauge.run_value hb.within
  rw [← hb.allocated, hb.total] at hgets
  have hallocated : s.metrics.dmaBufferPoolAllocatedBytes =
      ∑ w ∈ Finset.range e.reactors, (s.reactor w).pool.poolSize := by exact_mod_cast hgets
  obtain ⟨hgotten, hgetters⟩ := hb.gotten rfl
  have hfits : ∑ w ∈ Finset.range e.reactors, (s.reactor w).pool.poolSize < 2 ^ 64 :=
    (Finset.sum_congr rfl fun w _ => (hb.fresh rfl w).symm).trans_lt hb.fits
  refine ⟨hinUse.trans (by rw [hleases]), ?_, hallocated.trans hsizes, ?_, fun ops hops => ⟨?_, ?_, ?_⟩,
    fun ops hops => ⟨?_, ?_⟩⟩
  · rw [hinUse, hallocated, Finset.mul_sum]
    refine Finset.sum_le_sum fun w _ => ?_
    by_cases hw : s.Pooled w
    · obtain ⟨-, hsize, -⟩ := hb.sized w hw
      calc e.geometry.ioSegmentSize * (s.reactor w).pool.leases
          ≤ e.geometry.ioSegmentSize * (s.reactor w).pool.buffers.length := Nat.mul_le_mul_left _ (hwf w).leases_le
        _ = (s.reactor w).pool.poolSize := hsize
    · simp [hidle w hw]
  · have hpeak : s.metrics.dmaBufferPoolPeakInUseBytes = (Gauge.run (2 ^ 64) uses).peak := hb.peak
    rw [hpeak]
    exact Gauge.peak_isGreatest hb.within_uses hb.raised
  · exact (hops.value hb.bounded _ hb.named hb.fits).1
  · have hsame := (hops.value hb.bounded _ hb.named hb.fits).2
    rw [hbalance, ← hinUse] at hsame
    exact_mod_cast hsame
  · exact hops.peak hb.bounded _ hb.named hb.fits hb.raised
  · exact (hops.value hgotten _ hgetters hfits).1
  · have hsame := (hops.value hgotten _ hgetters hfits).2
    rw [hb.total] at hsame
    have hsame : (Gauge.run (2 ^ 64) ops).value = ∑ w ∈ Finset.range e.reactors, (s.reactor w).pool.poolSize := by
      exact_mod_cast hsame
    exact hsame.trans hallocated.symm

/-! ## Through the teardown -/

/-- The gauges on the way through the teardown: with the pools, and after `finish_shutdown_on_app_thread`. -/
inductive Settling (e : Env) (uses gets : List (Nat × GaugeOp)) (s : Sys) : Prop
  | booked (cap : Nat → Nat) (h : Booked e cap uses gets s.ctx.shutdownStarted (stock s))
  | cleared (started : s.ctx.shutdownStarted = true)
      (acks : s.cycle.total e (LifeFrame.acks s.ctx.ioWorkers) = 0)
      (bytes : ∀ w, (stock s).bytes w = 0) (inUse : (stock s).inUse = 0) (allocated : (stock s).allocated = 0)
      (uses : Within (2 ^ 64) uses ∧ balance uses = 0) (gets : Within (2 ^ 64) gets ∧ balance gets = 0)

/-- A pool that exists is set up or leased from: after the last acknowledgement no step does either. -/
theorem dealt_cleared {a : Action} {us gs : List (Nat × GaugeOp)} (hd : Dealt e s a us gs t)
    (hwf : ∀ w, (s.reactor w).pool.WF) (hnone : ∀ w, ¬ s.Pooled w)
    (hfill : ∀ w, .initializeIoWorker ∉ s.cycle.agenda w) (hbytes : ∀ w, (stock s).bytes w = 0)
    (hinUse : (stock s).inUse = 0) (hallocated : (stock s).allocated = 0) :
    (us = [] ∨ ∃ w, us = [(w, .clear)]) ∧ gs = [] ∧ (∀ w, t.bytes w = 0) ∧ t.inUse = 0 ∧ t.allocated = 0 := by
  cases hd with
  | quiet => exact ⟨.inl rfl, rfl, hbytes, hinUse, hallocated⟩
  | leased w c k free hini => exact absurd hini (hnone w)
  | bounced w c pool hini => exact absurd hini (hnone w)
  | returned w c k hl => exact absurd ((hwf w).leased_initialized hl) (hnone w)
  | filled w obtained onReactor channel rest hst =>
    exact absurd (stack_agenda (hst ▸ List.mem_cons_self)) (hfill w)
  | dropped w v =>
    refine ⟨.inl rfl, if_neg (not_not.2 (hbytes v)), fun u => ?_, hinUse, ?_⟩
    · simp only [Stock.drop, Function.update_apply]
      split
      · rfl
      · exact hbytes u
    · simp only [Stock.drop, hbytes v, ne_eq, not_true_eq_false, if_false]
      exact hallocated
  | cleared w => exact ⟨.inr ⟨w, rfl⟩, rfl, hbytes, rfl, hallocated⟩

theorem settling_step (h : Settling e uses gets s) (hwind : Winding e s) (ht : Tracks s ζ)
    (hc : Consistent e ζ) {a : Action} (haddressable : Addressable e s a) (hs : step e s a = some s') :
    Settling e (uses ++ inUseOps e s a) (gets ++ allocatedOps e s a) s' := by
  have hfill : ∀ w, .initializeIoWorker ∈ s.cycle.agenda w → s.ctx.shutdownStarted = false := by
    intro w hw
    by_contra hstarted
    have hasked := hwind.path.started (Bool.not_eq_false _ ▸ hstarted)
    exact nomatch (hwind.path.unfilled hwind.settled hw).symm.trans hasked
  have hclear : ∀ {ops : List (Nat × GaugeOp)} (w : Nat), Within (2 ^ 64) ops →
      Within (2 ^ 64) (ops ++ [(w, .clear)]) ∧ balance (ops ++ [(w, .clear)]) = 0 := by
    intro ops w hops
    refine ⟨hops.concat ?_, balance_concat⟩
    rw [balance_concat]
    simp [GaugeOp.settle]
  cases h with
  | booked cap h =>
    rcases h.step ht hc hwind.ordered haddressable (fun w hw => ⟨hwind.path.filling hw, hfill w hw⟩) hs with
      ⟨cap', hnew⟩ | ⟨w, hw, huses, hgets, hstock⟩
    · exact .booked cap' hnew
    · -- every pool has been released, so there are no bytes to count
      obtain ⟨hstarted, hacks⟩ := hwind.released hw
      obtain ⟨hstarted', hacks'⟩ := hwind.path.over hstarted hacks hs
      have hsize : ∀ v, ((stock s).pool v).poolSize = 0 := fun v =>
        poolSize_uninitialized (Bool.eq_false_iff.2 (hwind.unpooled hstarted hacks))
      have htotal : (stock s).total e = 0 := Finset.sum_eq_zero fun v _ => hsize v
      have hbalance : balance gets = 0 := by rw [h.total, htotal, Nat.cast_zero]
      have hallocated := Gauge.run_value h.within
      rw [← h.allocated, hbalance] at hallocated
      rw [huses, hgets, List.append_nil]
      refine .cleared hstarted' hacks' ?_ ?_ ?_ (hclear w h.within_uses) ⟨h.within, hbalance⟩
      · rw [hstock]
        exact fun v => (h.bytes v).trans (hsize v)
      · rw [hstock]
      · rw [hstock]
        exact_mod_cast hallocated
  | cleared started acks bytes inUse allocated uses gets =>
    obtain ⟨hstarted', hacks'⟩ := hwind.path.over started acks hs
    obtain ⟨hus, hgs, hbytes', hinUse', hallocated'⟩ := dealt_cleared (step_dealt ht hc hs)
      (fun w => (ht.tidy.reactor w).pool) (fun w => hwind.unpooled started acks)
      (fun w hw => nomatch (hfill w hw).symm.trans started) bytes inUse allocated
    rw [hgs, List.append_nil]
    refine .cleared hstarted' hacks' hbytes' hinUse' hallocated' ?_ gets
    rcases hus with hus | ⟨w, hus⟩
    · rw [hus, List.append_nil]
      exact uses
    · rw [hus]
      exact hclear w uses.1

/-- The gauges with `uses` and `gets` behind them: neither has been below zero, and both are zero once
`finish_shutdown_on_app_thread` has stored zero in the one of what is in use. -/
structure Emptied (s : Sys) (uses gets : List (Nat × GaugeOp)) : Prop where
  usesWithin : Within (2 ^ 64) uses
  getsWithin : Within (2 ^ 64) gets
  inUse : (s.metrics.dmaBufferPoolInUseBytes : Int) = balance uses
  allocated : (s.metrics.dmaBufferPoolAllocatedBytes : Int) = balance gets
  finished : (∃ w, (w, .clear) ∈ uses) →
    s.metrics.dmaBufferPoolInUseBytes = 0 ∧ s.metrics.dmaBufferPoolAllocatedBytes = 0

theorem Settling.emptied (h : Settling e uses gets s) : Emptied s uses gets := by
  cases h with
  | booked cap h =>
    refine ⟨h.within_uses, h.within, ?_, ?_, fun ⟨w, hw⟩ => absurd rfl (h.named _ hw).2⟩
    · rw [← Gauge.run_value h.within_uses, ← h.inUse]
      rfl
    · rw [← Gauge.run_value h.within, ← h.allocated]
      rfl
  | cleared started acks bytes inUse allocated uses gets =>
    refine ⟨uses.1, gets.1, ?_, ?_, fun _ => ⟨inUse, allocated⟩⟩
    · rw [uses.2]
      exact_mod_cast inUse
    · rw [gets.2]
      exact_mod_cast allocated

/-- **The DMA gauges are exact** before the teardown, in every order of the workers' operations; and through a
teardown requested once every worker has reported, neither is ever below zero and both end at zero. -/
theorem dma_accounting {device : Nat → UInt8} {as : List Action} (hn : 0 < e.ioThreadCount)
    (haddressable : Guarded (step e) (Addressable e) (Sys.init device) as)
    (h : runFrom (step e) (Sys.init device) as = some s) :
    (s.ctx.shutdownStarted = false →
      ExactGauges s e.geometry.ioSegmentSize (observed (step e) (inUseOps e) (Sys.init device) as)
        (observed (step e) (allocatedOps e) (Sys.init device) as)) ∧
    (Guarded (step e) (OnceReported e) (Sys.init device) as →
      Emptied s (observed (step e) (inUseOps e) (Sys.init device) as)
        (observed (step e) (allocatedOps e) (Sys.init device) as)) := by
  constructor
  · intro hno
    have hrun := run_observed_both (inUseOps e) (allocatedOps e) [] []
      (I := fun uses gets s => (∃ ζ, Tracks s ζ ∧ Consistent e ζ) ∧ Kept e uses gets s) ?_
      ⟨⟨_, init_tracks device, init_consistent e device⟩, init_kept e device⟩ haddressable h
    · obtain ⟨⟨ζ, ht, -⟩, hkept⟩ := hrun
      exact hkept.exact ht hno
    · rintro uses gets s1 a s2 ⟨⟨ζ, ht, hc⟩, hkept⟩ hoka hs
      obtain ⟨ζ', hm, ht', -⟩ := step_follows ht hc hs
      exact ⟨⟨ζ', ht', moves_consistent hc hm⟩, kept_step hn hkept ht hc hoka hs⟩
  · intro hreported
    have hrun := run_observed_both (inUseOps e) (allocatedOps e) [] []
      (I := fun uses gets s => (∃ ζ, Tracks s ζ ∧ Consistent e ζ) ∧ Winding e s ∧ Settling e uses gets s) ?_
      ⟨⟨_, init_tracks device, init_consistent e device⟩, ?_, .booked _ (init_booked e device)⟩
      (haddressable.and hreported) h
    · exact hrun.2.2.emptied
    · rintro uses gets s1 a s2 ⟨⟨ζ, ht, hc⟩, hwind, hsettling⟩ ⟨hoka, hokr⟩ hs
      obtain ⟨ζ', hm, ht', -⟩ := step_follows ht hc hs
      exact ⟨⟨ζ', ht', moves_consistent hc hm⟩, winding_step hn hwind ht hc hokr hs,
        settling_step hsettling hwind ht hc hoka hs⟩
    · have hkept := init_kept e device
      refine ⟨hkept.path, fun hr => (nomatch hr), hkept.ordered, hkept.hosted, fun hstarted => (nomatch hstarted)⟩

/-- Two workers are set up, and each leases the buffer of its pool. -/
def leasedRun : List Action :=
  [.reactor 0 .message, .reactor 0 (.code 0), .reactor 0 .next, .reactor 0 (.code 0), .reactor 0 .next,
    .reactor 0 (.setUp true true 1), .reactor 0 .next, .reactor 1 .message, .reactor 1 (.setUp true true 1),
    .reactor 1 .next, .reactor 1 .next, .owner .next,
    .submit .read [⟨some ⟨0, 0⟩, 2, 0, 2⟩, ⟨some ⟨0, 2⟩, 2, 2, 2⟩] fun _ j => j.toUInt8, .caller 0 .next,
    .caller 0 (.code 0), .caller 0 .next, .caller 0 (.code 0), .caller 0 .next, .caller 0 .next,
    .reactor 0 .message, .reactor 0 .next, .reactor 0 (.submit 0 0 0), .reactor 0 .next,
    .reactor 1 .message, .reactor 1 .next, .reactor 1 (.submit 0 0 0), .reactor 1 .next]

/-- The bdev is removed, the second worker cannot be told, and both reads are called back when the pools are gone. -/
def lateRun : List Action :=
  leasedRun ++ [.reactor 0 .remove, .reactor 0 .next, .reactor 0 (.code 0), .reactor 0 .message, .reactor 0 .next,
    .reactor 0 (.code (-1)), .reactor 1 (.completion 0 false), .reactor 1 .next, .reactor 1 .next, .reactor 0 .next,
    .reactor 0 .next, .reactor 0 .next, .reactor 0 .next, .reactor 0 .next, .reactor 0 .next, .reactor 0 .next,
    .reactor 0 .next, .reactor 0 (.completion 0 false), .reactor 0 .next]

theorem dma_accounting_pair :
    (∃ s, runFrom (step pairEnv) (Sys.init Nat.toUInt8) leasedRun = some s ∧
      s.metrics.dmaBufferPoolInUseBytes = 8 ∧ ExactGauges s 4
        (observed (step pairEnv) (inUseOps pairEnv) (Sys.init Nat.toUInt8) leasedRun)
        (observed (step pairEnv) (allocatedOps pairEnv) (Sys.init Nat.toUInt8) leasedRun)) ∧
    ∃ s, runFrom (step pairEnv) (Sys.init Nat.toUInt8) lateRun = some s ∧
      s.metrics.dmaBufferPoolPeakInUseBytes = 8 ∧ s.metrics.dmaBufferPoolInUseBytes = 0 ∧
      s.metrics.dmaBufferPoolAllocatedBytes = 0 := by
  constructor
  · have hend : (runFrom (step pairEnv) (Sys.init Nat.toUInt8) leasedRun).any (fun s =>
        decide (s.ctx.shutdownStarted = false ∧ s.metrics.dmaBufferPoolInUseBytes = 8)) = true := by decide +kernel
    obtain ⟨s, hrun, hs⟩ := (Option.any_eq_true _ _).1 hend
    obtain ⟨hno, hinUse⟩ := of_decide_eq_true hs
    exact ⟨s, hrun, hinUse, (dma_accounting (by decide) (by decide +kernel) hrun).1 hno⟩
  · have hend : (runFrom (step pairEnv) (Sys.init Nat.toUInt8) lateRun).any (fun s =>
        decide (s.metrics.dmaBufferPoolPeakInUseBytes = 8)) = true := by decide +kernel
    obtain ⟨s, hrun, hs⟩ := (Option.any_eq_true _ _).1 hend
    have hemptied := (dma_accounting (e := pairEnv) (by decide) (by decide +kernel) hrun).2 (by decide +kernel)
    obtain ⟨h1, h2⟩ := hemptied.finished ⟨0, by decide +kernel⟩
    exact ⟨s, hrun, of_decide_eq_true hs, h1, h2⟩

end SpdkBdevContext
end SpdkConnector
