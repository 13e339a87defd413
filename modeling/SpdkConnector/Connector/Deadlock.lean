import SpdkConnector.Connector.Refinement

/-!
# The mutexes cannot deadlock

Every operation takes its mutexes in the order of `Mutex.lt`: `key_states_mutex_` alone (:256), key states
by ascending address without repetition (:273-284), the allocator's mutex last. So along a chain of
operations each waiting for the next the mutexes ascend, and the addresses of the key states bound the
ascent.
-/

namespace SpdkConnector

open Interleaving

variable {g : StorageGeometry} {pool : Pool Shared Call Cmd Answer Exn Ret}

/-- The next command of operation `t` takes `m`. -/
def Locking (pool : Pool Shared Call Cmd Answer Exn Ret) (t : Nat) (m : Mutex) : Prop :=
  ∃ c k, pool.tasks t = some ⟨c, .call (.lock m) k⟩

/-- Operation `t` waits for `m`, and `u` holds it. -/
def WaitsFor (pool : Pool Shared Call Cmd Answer Exn Ret) (t : Nat) (m : Mutex) (u : Nat) : Prop :=
  Locking pool t m ∧ pool.shared.owner m = some u

/-- The position of a mutex in the order, the allocator's at `top`. -/
def Mutex.height (top : Nat) : Mutex → Nat
  | .keyStates => 0
  | .key p => p + 1
  | .allocator => top

/-- One above the address of every key state. -/
def topHeight (s : Shared) : Nat := (s.keyStates.map Prod.snd).foldr max 0 + 2

/-- A mutex somebody holds is below the top. -/
theorem height_le {s : Shared} {γ : Ghost} (hi : Inv g s γ) {m : Mutex} {u : Nat} (ho : s.owner m = some u) :
    m.height (topHeight s) ≤ topHeight s ∧ ∀ p, m = .key p → p + 1 < topHeight s := by
  cases m with
  | keyStates => exact ⟨Nat.zero_le _, nofun⟩
  | allocator => exact ⟨Nat.le_refl _, nofun⟩
  | key p =>
    have hknown : p ∈ s.keyStates.map Prod.snd := by
      by_contra hc
      have := (hi.unknown_state p hc).2
      rw [ho] at this
      cases this
    have hle := le_foldr_max hknown
    refine ⟨?_, fun q hq => ?_⟩
    · simp only [Mutex.height, topHeight]
      omega
    · cases hq
      simp only [topHeight]
      omega

theorem height_lt {top : Nat} {m m' : Mutex} (h : m.lt m') (htop : 0 < top)
    (hm : ∀ p, m = .key p → p + 1 < top) : m.height top < m'.height top := by
  cases m <;> cases m' <;> simp only [Mutex.lt] at h <;> simp only [Mutex.height]
  · omega
  · exact htop
  · omega
  · exact hm _ rfl

/-- **Lock order**: an operation about to take a mutex holds only smaller ones. -/
theorem locking_above (hg : g.Valid) {γ : Ghost}
    (h : LocalLogic.PoolOk (connectorLogic hg) (fun _ => View.idle) Done pool γ) {t : Nat} {m m' : Mutex}
    (hl : Locking pool t m) (hm' : pool.shared.owner m' = some t) : m'.lt m := by
  obtain ⟨c, k, ht⟩ := hl
  obtain ⟨v, hv, -, v1, hmoves, hw⟩ := h.running t c _ ht
  obtain ⟨γ1, ⟨hi1, -⟩, hv1, -⟩ := LocalLogic.moves_sound h.inv hv hmoves
  have hpre : cmdPre g (.lock m) v1 := (hw (hv1.wf hi1)).1
  exact hpre.1 m' ((hv1.owner m').1 hm')

/-- Going up a chain of waiting operations ends. -/
theorem waiting_chain_ends (hg : g.Valid) {γ : Ghost}
    (h : LocalLogic.PoolOk (connectorLogic hg) (fun _ => View.idle) Done pool γ) {S : Set Nat}
    (hS : ∀ t ∈ S, ∃ m u, WaitsFor pool t m u ∧ u ∈ S) :
    ∀ (n : Nat) (t : Nat) (m : Mutex) (u : Nat), WaitsFor pool t m u → u ∈ S →
      topHeight pool.shared ≤ m.height (topHeight pool.shared) + n → False := by
  intro n
  induction n with
  | zero =>
    intro t m u hw hu hn
    obtain ⟨m', u', hw', -⟩ := hS u hu
    have hlt := height_lt (locking_above hg h hw'.1 hw.2) (by simp [topHeight])
      (height_le h.inv hw.2).2
    have hle := (height_le h.inv hw'.2).1
    omega
  | succ n ih =>
    intro t m u hw hu hn
    obtain ⟨m', u', hw', hu'⟩ := hS u hu
    have hlt := height_lt (locking_above hg h hw'.1 hw.2) (by simp [topHeight])
      (height_le h.inv hw.2).2
    exact ih u m' u' hw' hu' (by omega)

/-- **Deadlock freedom**: in every reachable state no operation waits for a mutex it holds, and no set of
operations is closed under waiting. -/
theorem locks_deadlock_free {nb bs wu ba seg mx bc : Nat} {a : PageExtentAllocator}
    (hgeo : buildStorageGeometry nb bs wu ba seg mx bc = .ok g)
    (ha : PageExtentAllocator.new g.pageCount = .ok a) {dev : Nat → UInt8} {acts : List (Act Call Choice)}
    (hrun : (Pool.init (Shared.init a dev)).run (connector g) acts = some pool) :
    (∀ t m, ¬ WaitsFor pool t m t) ∧
    ∀ S : Set Nat, S.Nonempty → ¬ ∀ t ∈ S, ∃ m u, WaitsFor pool t m u ∧ u ∈ S := by
  have hg := buildStorageGeometry_valid hgeo
  obtain ⟨γ, h⟩ := pool_ok hg ha hrun
  constructor
  · rintro t m ⟨hl, ho⟩
    exact m.lt_irrefl (locking_above hg h hl ho)
  · rintro S ⟨t, ht⟩ hS
    obtain ⟨m, u, hw, hu⟩ := hS t ht
    exact waiting_chain_ends hg h hS _ t m u hw hu (Nat.le_add_left _ _)

/-- Two batches over the same keys in opposite order: the second waits for the first, not the other way. -/
def crossedBatches : List (Act Call Choice) :=
  [.start 1 (.batchSet [⟨[7], [1]⟩, ⟨[8], [2]⟩]), .start 2 (.batchSet [⟨[8], [3]⟩, ⟨[7], [4]⟩]),
    .step 1 {}, .step 1 {}, .step 1 {}, .step 1 {}, .step 1 {}, .step 1 {},
    .step 2 {}, .step 2 {}, .step 2 {}, .step 2 {}, .step 2 {}, .step 2 {}, .step 1 {}]

theorem locks_deadlock_free_crossed : ∃ pool,
    (Pool.init (Shared.init ⟨[⟨0, 4⟩], 4, 4⟩ fun _ => 0)).run (connector ⟨8, 8, 2, 4, 2, 0, 2, 1, 1, 1⟩)
      crossedBatches = some pool ∧ (∀ t m, ¬ WaitsFor pool t m t) ∧
    ∀ S : Set Nat, S.Nonempty → ¬ ∀ t ∈ S, ∃ m u, WaitsFor pool t m u ∧ u ∈ S := by
  have hsome : ((Pool.init (Shared.init ⟨[⟨0, 4⟩], 4, 4⟩ fun _ => 0)).run
      (connector ⟨8, 8, 2, 4, 2, 0, 2, 1, 1, 1⟩) crossedBatches).isSome = true := by decide
  have hrun := (Option.some_get hsome).symm
  exact ⟨_, hrun, locks_deadlock_free (g := ⟨8, 8, 2, 4, 2, 0, 2, 1, 1, 1⟩) (a := ⟨[⟨0, 4⟩], 4, 4⟩)
    (show buildStorageGeometry 4 2 1 1 2 0 1 = .ok _ from rfl) rfl hrun⟩

end SpdkConnector
