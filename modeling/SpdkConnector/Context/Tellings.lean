import SpdkConnector.Context.PoolsEmptied

/-!
# What the teardown leaves behind it

Each worker is told to stop once, and the message is the last of its reactor's calls, so a worker that has
released its channel has only the end of `shutdown_io_worker` left (`Telling`). The application thread goes
from the first post to `finish_shutdown_on_app_thread` with nothing under it but acknowledgements (`Central`):
when `shutdown_complete_` is set the one call left there is the `notify_all` after it.

A worker that cannot be told acknowledges without its reactor: it must have none of these calls to make.
-/

namespace SpdkConnector
namespace SpdkBdevContext

open Interleaving

variable {e : Env} {s s' : Sys} {κ κ' : Cycle} {w v i : Nat} {f g : LifeFrame} {rest : List LifeFrame} {x : Effect}
  {c : Members} {ch : Choice} {available : Bool}

/-- A call on reactor `v` that has still to tell worker `i`, or is its `shutdown_io_worker`. -/
def LifeFrame.tells (i v : Nat) : LifeFrame → Nat
  | .postShutdown j => if i = 0 ∨ j ≤ i then 1 else 0
  | .shutdownIoWorker | .releaseIoWorker => if v = i then 1 else 0
  | _ => 0

/-- What is left of `shutdown_io_worker` when the worker has given up its channel and its pool. -/
def LifeFrame.Leaving : LifeFrame → Prop
  | .postFinish | .threadExit _ => True
  | _ => False

/-- The calls of the application thread once the teardown has started. -/
def LifeFrame.Late : LifeFrame → Prop
  | .postShutdown _ | .shutdownIoWorker | .releaseIoWorker | .onIoWorkerShutdown | .releaseDescriptor
  | .finishShutdown | .notifyAll | .requestShutdown _ _ => True
  | _ => False

/-- The calls that only the application thread makes. -/
def LifeFrame.Central : LifeFrame → Prop
  | .onIoWorkerShutdown | .releaseDescriptor | .finishShutdown => True
  | _ => False

/-! ## Weights -/

/-- Of calls that weigh one in all, one leaves nothing for the others. -/
theorem weigh_once (weight : Nat → LifeFrame → Nat) (hag : κ.agenda w = f :: rest) (hw : w < e.reactors)
    (hf : weight w f = 1) (h : κ.weigh e weight ≤ 1) :
    (∀ g ∈ rest, weight w g = 0) ∧ ∀ v < e.reactors, v ≠ w → ∀ g ∈ κ.agenda v, weight v g = 0 := by
  have hput := weigh_put (κ := κ) hw weight rest
  rw [hag, List.map_cons, List.sum_cons, hf] at hput
  have hzero : (κ.put w rest).weigh e weight = 0 := by omega
  have hnone : ∀ v < e.reactors, ∀ g ∈ (κ.put w rest).agenda v, weight v g = 0 := by
    intro v hv g hg
    have hle := weight_le_weigh weight hv hg
    omega
  refine ⟨fun g hg => hnone w hw g ?_, fun v hv hvw g hg => hnone v hv g ?_⟩
  · rw [put_agenda, Function.update_self]
    exact hg
  · rwa [put_agenda, Function.update_of_ne hvw]

/-- Before the teardown no worker is being told. -/
theorem weigh_calm (h : ∀ v, ∀ g ∈ κ.agenda v, ¬ g.Tearing) (i : Nat) : κ.weigh e (LifeFrame.tells i) = 0 := by
  refine Finset.sum_eq_zero fun v _ => List.sum_eq_zero fun n hn => ?_
  obtain ⟨g, hg, rfl⟩ := List.mem_map.1 hn
  have hcalm := h v g hg
  cases g <;> first | rfl | exact absurd trivial hcalm

/-! ## One call -/

theorem begun_tells (hl : Lived e available c w .beginShutdown ch x) (hno : c.shutdownStarted = false) (hi : i < c.ioWorkers) :
    x.weigh w (LifeFrame.tells i) = 1 := by
  cases hl with
  | begunAlready hs => exact nomatch hno.symm.trans hs
  | begun =>
    have hne : c.ioWorkers ≠ 0 := by omega
    simp [Effect.weigh, hne, LifeFrame.tells]

theorem cut_tells {rc : Int} (hl : Lived e available c w (.postShutdown i) (.code rc) x) (hrc : rc ≠ 0) (hi : 1 ≤ i) :
    x.weigh w (LifeFrame.tells i) = 0 := by
  cases hl with
  | shutdownPosted => exact absurd rfl hrc
  | shutdownFailed =>
    simp [Effect.weigh, LifeFrame.tells]
    omega

/-- A call keeps what it has to tell, or worker `i` is released by it, or the teardown begins with it. -/
theorem lived_tells (hl : Lived e available c w f ch x) (hf : ¬ f.Early) (hi : i < c.ioWorkers)
    (hindex : ∀ j, f = .postShutdown j → 1 ≤ j ∧ w = 0) :
    x.weigh w (LifeFrame.tells i) = f.tells i w ∨
    f.tells i w = 1 ∧ x.weigh w (LifeFrame.tells i) = 0 ∧
      (f = .releaseIoWorker ∧ w = i ∨ f = .postShutdown i ∧ ∃ rc, rc ≠ 0 ∧ ch = .code rc) ∨
    c.shutdownStarted = false ∧ f = .beginShutdown ∧ x.weigh w (LifeFrame.tells i) = 1 := by
  cases hl with
  | openFailed | opened | rejected | configured => exact absurd trivial hf
  | initializedLast error lastError =>
    left
    cases lastError == "" <;> simp [Effect.weigh, LifeFrame.tells]
  | requested rc error lastError code start =>
    left
    cases start <;> simp [Effect.weigh, LifeFrame.tells]
  | begun hs => exact .inr (.inr ⟨hs, rfl, begun_tells (show Lived e available c w _ _ _ from .begun hs) hs hi⟩)
  | shutdownPosted j hj =>
    left
    obtain ⟨hj1, -⟩ := hindex j rfl
    simp only [Effect.weigh, LifeFrame.tells, List.map_cons, List.map_nil, List.sum_cons, List.sum_nil,
      Option.elim_some]
    split <;> split <;> split <;> omega
  | shutdownFailed j rc hj hrc lastError =>
    obtain ⟨hj1, -⟩ := hindex j rfl
    by_cases hij : i = j
    · subst hij
      have hcut := cut_tells (show Lived e available c w _ _ _ from .shutdownFailed i rc hj hrc lastError) hrc hj1
      exact .inr (.inl ⟨by simp [LifeFrame.tells], hcut, .inr ⟨rfl, rc, hrc, rfl⟩⟩)
    · left
      simp only [Effect.weigh, LifeFrame.tells, List.map_cons, List.map_nil, List.sum_cons, List.sum_nil,
        Option.elim_none]
      split <;> split <;> omega
  | shutdownOwn j hj =>
    left
    obtain ⟨hj1, rfl⟩ := hindex j rfl
    simp only [Effect.weigh, LifeFrame.tells, List.map_cons, List.map_nil, List.sum_cons, List.sum_nil,
      Option.elim_none]
    split <;> split <;> omega
  | released =>
    by_cases hwi : w = i
    · refine .inr (.inl ⟨by simp [LifeFrame.tells, hwi], ?_, .inl ⟨rfl, hwi⟩⟩)
      simp only [Effect.weigh]
      split <;> simp [LifeFrame.tells]
    · left
      simp only [Effect.weigh]
      split <;> simp [LifeFrame.tells, hwi]
  | acknowledged =>
    left
    simp only [Effect.weigh]
    split <;> simp [LifeFrame.tells]
  | _ => exact .inl (by simp [Effect.weigh, LifeFrame.tells])

/-- Where a call leads: on the reactors of the workers, with the teardown of each on its own. -/
theorem lived_staffed (hl : Lived e available c w f ch x) (hf : ¬ f.Early) :
    (∀ g ∈ x.calls, g.Tearing → f.Tearing ∨ f = .beginShutdown ∧ c.ioWorkers ≠ 0) ∧
    (∀ i, .postShutdown i ∈ x.calls → 1 ≤ i) ∧
    (∀ u g, x.post = some (u, g) → (u = 0 ∨ u < c.ioWorkers) ∧ (g.Tearing → u < c.ioWorkers) ∧
      (∀ i, g ≠ .postShutdown i)) ∧
    ∀ g ∈ x.calls, g.Central → w = 0 ∨ f.Central ∨ f = .beginShutdown ∨ ∃ i, f = .postShutdown i := by
  cases hl with
  | openFailed | opened | rejected | configured => exact absurd trivial hf
  | initializedLast error lastError =>
    cases lastError == "" <;> simp [LifeFrame.Tearing, LifeFrame.Central]
  | requested rc error lastError code start =>
    cases start <;> simp [LifeFrame.Tearing, LifeFrame.Central]
  | begun hs =>
    dsimp only
    split <;> simp_all [LifeFrame.Tearing, LifeFrame.Central]
  | released =>
    dsimp only
    split <;> simp_all [LifeFrame.Tearing, LifeFrame.Central]
  | acknowledged =>
    dsimp only
    split <;> simp [LifeFrame.Tearing, LifeFrame.Central]
  | setUpPosted j hj | shutdownPosted j hj =>
    simp [LifeFrame.Tearing, LifeFrame.Central]
    omega
  | _ => simp [LifeFrame.Tearing, LifeFrame.Central]

/-- A call of `shutdown_io_worker` makes the next one alone, and no other call makes one but the last post. -/
theorem lived_flushes (hl : Lived e available c w f ch x) (hown : ∀ i, f ≠ .postShutdown i) :
    f.Flushes ∧ (∃ g, x.calls = [g]) ∧ x.post = none ∨ ¬ f.Flushes ∧ ∀ g ∈ x.calls, ¬ g.Flushes := by
  cases hl with
  | flushed | flushedAll => exact .inl ⟨trivial, ⟨_, rfl⟩, rfl⟩
  | released =>
    refine .inl ⟨trivial, ?_, rfl⟩
    dsimp only
    split <;> exact ⟨_, rfl⟩
  | shutdownPosted i | shutdownFailed i | shutdownOwn i => exact absurd rfl (hown i)
  | initializedLast error lastError => cases lastError == "" <;> simp [LifeFrame.Flushes]
  | requested rc error lastError code start => cases start <;> simp [LifeFrame.Flushes]
  | begun | acknowledged =>
    refine .inr ⟨id, ?_⟩
    dsimp only
    split <;> simp [LifeFrame.Flushes]
  | _ => exact .inr ⟨id, by simp [LifeFrame.Flushes]⟩

/-- The messages of the life cycle. -/
theorem lived_posts (hl : Lived e available c w f ch x) (hx : x.post = some (v, g)) :
    v = 0 ∧ f = .postBeginShutdown ∧ g = .beginShutdown ∨ v = 0 ∧ f = .postFinish ∧ g = .onIoWorkerShutdown ∨
    f = .postSetUp v ∧ g = .initializeIoWorker ∨ f = .postShutdown v ∧ g = .shutdownIoWorker := by
  cases hl with
  | beginPosted | finishPosted | setUpPosted | shutdownPosted =>
    cases hx
    simp
  | _ => cases hx

/-! ## Telling the workers -/

structure Telling (e : Env) (κ : Cycle) : Prop where
  told : ∀ i < κ.ctx.ioWorkers, κ.weigh e (LifeFrame.tells i) ≤ 1
  hosted : ∀ v, ∀ g ∈ κ.agenda v, v = 0 ∨ v < κ.ctx.ioWorkers
  staffed : ∀ v, ∀ g ∈ κ.agenda v, g.Tearing → v < κ.ctx.ioWorkers
  index : ∀ v i, .postShutdown i ∈ κ.agenda v → 1 ≤ i
  central : ∀ v, ∀ g ∈ κ.agenda v, g.Central → v = 0
  behind : ∀ v, v ≠ 0 → (κ.agenda v).Pairwise fun f _ => ¬ f.Flushes
  gone : κ.ctx.shutdownStarted = true → ∀ v, v ≠ 0 → v < κ.ctx.ioWorkers → κ.weigh e (LifeFrame.tells v) = 0 →
    ∀ g ∈ κ.agenda v, g.Leaving

/-- A relation along an agenda after a call. -/
theorem run_pairwise {R : LifeFrame → LifeFrame → Prop} (hbase : v = w → (x.calls ++ rest).Pairwise R)
    (hother : v ≠ w → (κ.agenda v).Pairwise R)
    (hpost : ∀ g, x.post = some (v, g) → ∀ a ∈ if v = w then x.calls ++ rest else κ.agenda v, R a g) :
    ((κ.run w rest x).agenda v).Pairwise R := by
  rw [run_agenda]
  refine List.pairwise_append.2 ⟨?_, ?_, fun a ha b hb => ?_⟩
  · split
    · exact hbase ‹v = w›
    · exact hother ‹¬ v = w›
  · cases x.post with
    | none => exact .nil
    | some p =>
      rw [Option.elim_some]
      split
      · exact List.pairwise_singleton _ _
      · exact .nil
  · cases hx : x.post with
    | none =>
      rw [hx] at hb
      cases hb
    | some p =>
      obtain ⟨u, g⟩ := p
      rw [hx, Option.elim_some] at hb
      dsimp only at hb
      split at hb
      · rename_i hv
        obtain rfl := List.mem_singleton.1 hb
        exact hpost b (by rw [hx, hv]) a ha
      · cases hb

theorem Flushes_tearing (h : f.Flushes) : f.Tearing := by
  cases f <;> first | exact h | exact trivial

/-- Nothing of `shutdown_io_worker` is on a reactor that is about to get a message. -/
theorem Telling.untold (h : Telling e κ) (ho : Opened e κ) (hord : Ordered κ) (hcourse : Course e κ)
    (hag : κ.agenda w = f :: rest) (hl : Lived e available κ.ctx w f ch x) (hv : v ≠ 0) (hx : x.post = some (v, g)) :
    v ≠ w ∧ ∀ a ∈ κ.agenda v, ¬ a.Flushes := by
  have hmem : f ∈ κ.agenda w := hag ▸ List.mem_cons_self
  have hw := (ho.confined w f hmem).1
  have hu := ((lived_confined hl (ho.confined w f hmem).2 ho.workers).2 v g hx).1
  rcases lived_posts hl hx with ⟨rfl, -⟩ | ⟨rfl, -⟩ | ⟨rfl, -⟩ | ⟨rfl, -⟩
  · exact absurd rfl hv
  · exact absurd rfl hv
  · -- no teardown has started
    have hw0 : w = 0 := hord.zero w _ hmem (.inl trivial)
    refine ⟨fun hvw => hv (hvw.trans hw0), fun a ha hfl => ?_⟩
    by_cases hs : κ.ctx.shutdownStarted = true
    · exact hord.started hs w _ hmem trivial
    · exact hord.calm (Bool.eq_false_iff.2 hs) v a ha (Flushes_tearing hfl)
  · -- the worker is told once
    have hw0 : w = 0 := hcourse.zero w v hmem
    have hvw : v ≠ w := fun hvw => hv (hvw.trans hw0)
    have htells : LifeFrame.tells v w (.postShutdown v) = 1 := by simp [LifeFrame.tells]
    have hlt : v < κ.ctx.ioWorkers := by
      cases hl with
      | shutdownPosted _ hlt => exact hlt
      | _ => cases hx
    obtain ⟨-, hnone⟩ := weigh_once (e := e) (LifeFrame.tells v) hag hw htells (h.told v hlt)
    refine ⟨hvw, fun a ha hfl => ?_⟩
    have hzero := hnone v hu hvw a ha
    cases a with
    | shutdownIoWorker | releaseIoWorker => simp [LifeFrame.tells] at hzero
    | _ => exact hfl

/-- A worker has been told before the call, or gives up its channel in it, or cannot be told. -/
theorem Telling.untold_run (h : Telling e κ) (ho : Opened e κ) (hord : Ordered κ) (hcourse : Course e κ)
    (hag : κ.agenda w = f :: rest) (hl : Lived e available κ.ctx w f ch x) (hi : i < κ.ctx.ioWorkers)
    (hs : x.ctx.shutdownStarted = true) (hzero : (κ.run w rest x).weigh e (LifeFrame.tells i) = 0) :
    κ.ctx.shutdownStarted = true ∧ (κ.weigh e (LifeFrame.tells i) = 0 ∨ f = .releaseIoWorker ∧ w = i ∨
      f = .postShutdown i ∧ w = 0 ∧ ∃ rc, rc ≠ 0 ∧ ch = .code rc) := by
  have hmem : f ∈ κ.agenda w := hag ▸ List.mem_cons_self
  obtain ⟨hw, hf⟩ := ho.confined w f hmem
  have hpost := fun u g hx => ((lived_confined hl hf ho.workers).2 u g hx).1
  have hweigh := weigh_run hag hw hpost (LifeFrame.tells i)
  have hown : ∀ j, f = .postShutdown j → 1 ≤ j ∧ w = 0 := by
    rintro j rfl
    exact ⟨h.index w j hmem, hcourse.zero w j hmem⟩
  have hcalm : f.Tearing → κ.ctx.shutdownStarted = true := by
    intro ht
    by_contra hno
    exact hord.calm (by simpa using hno) w f hmem ht
  rcases lived_tells hl hf hi hown with heq | ⟨-, -, ⟨rfl, rfl⟩ | ⟨rfl, rc, hrc, rfl⟩⟩ | ⟨hno, rfl, h1⟩
  · rcases lived_started hl hs with hbefore | ⟨rfl, -⟩
    · exact ⟨hbefore, .inl (by omega)⟩
    · by_cases hbefore : κ.ctx.shutdownStarted = true
      · exact ⟨hbefore, .inl (by omega)⟩
      · rw [begun_tells hl (by simpa using hbefore) hi] at heq
        exact nomatch (heq : 1 = 0)
  · exact ⟨hcalm trivial, .inr (.inl ⟨rfl, rfl⟩)⟩
  · exact ⟨hcalm trivial, .inr (.inr ⟨rfl, (hown i rfl).2, rc, hrc, rfl⟩)⟩
  · have hnone : LifeFrame.tells i w .beginShutdown = 0 := rfl
    omega

/-- A worker that has been told stays so. -/
theorem Telling.stays_run (h : Telling e κ) (ho : Opened e κ) (hcourse : Course e κ) (hag : κ.agenda w = f :: rest)
    (hl : Lived e available κ.ctx w f ch x) (hi : i < κ.ctx.ioWorkers) (hs : κ.ctx.shutdownStarted = true)
    (hzero : κ.weigh e (LifeFrame.tells i) = 0) : (κ.run w rest x).weigh e (LifeFrame.tells i) = 0 := by
  have hmem : f ∈ κ.agenda w := hag ▸ List.mem_cons_self
  obtain ⟨hw, hf⟩ := ho.confined w f hmem
  have hpost := fun u g hx => ((lived_confined hl hf ho.workers).2 u g hx).1
  have hweigh := weigh_run hag hw hpost (LifeFrame.tells i)
  have hle := weight_le_weigh (e := e) (LifeFrame.tells i) hw hmem
  have hown : ∀ j, f = .postShutdown j → 1 ≤ j ∧ w = 0 := by
    rintro j rfl
    exact ⟨h.index w j hmem, hcourse.zero w j hmem⟩
  rcases lived_tells hl hf hi hown with heq | ⟨h1, -⟩ | ⟨hno, -⟩
  · omega
  · omega
  · exact nomatch hno.symm.trans hs

theorem Telling.run (h : Telling e κ) (ho : Opened e κ) (hord : Ordered κ) (hcourse : Course e κ)
    (hag : κ.agenda w = f :: rest) (hl : Lived e available κ.ctx w f ch x)
    (hcut : ∀ i rc, f = .postShutdown i → ch = .code rc → rc ≠ 0 → κ.agenda i = []) : Telling e (κ.run w rest x) := by
  have hmem : f ∈ κ.agenda w := hag ▸ List.mem_cons_self
  obtain ⟨hw, hf⟩ := ho.confined w f hmem
  have hpost := fun u g hx => ((lived_confined hl hf ho.workers).2 u g hx).1
  have hworkers : (κ.run w rest x).ctx.ioWorkers = κ.ctx.ioWorkers := (lived_same hl hf).1
  obtain ⟨htearing, hindex, hposted, hcentral⟩ := lived_staffed hl hf
  have hown : ∀ j, f = .postShutdown j → 1 ≤ j ∧ w = 0 := by
    rintro j rfl
    exact ⟨h.index w j hmem, hcourse.zero w j hmem⟩
  have hbegin : f = .beginShutdown → w = 0 := fun hfb => hord.zero w f hmem (.inr hfb)
  refine ⟨fun i hi => ?_, fun v g hg => ?_, fun v g hg ht => ?_, fun v i hg => ?_, fun v g hg hc => ?_, fun v hv => ?_,
    fun hs v hv hlt hzero => ?_⟩
  · rw [hworkers] at hi
    have hweigh := weigh_run hag hw hpost (LifeFrame.tells i)
    have htold := h.told i hi
    rcases lived_tells hl hf hi hown with heq | ⟨h1, h2, -⟩ | ⟨hs, rfl, h1⟩
    · omega
    · omega
    · have hcalm := weigh_calm (e := e) (hord.calm hs) i
      omega
  · rw [hworkers]
    rcases mem_run hag hg with hg | ⟨rfl, -⟩ | hx
    · exact h.hosted v g hg
    · exact h.hosted v f hmem
    · exact (hposted v g hx).1
  · rw [hworkers]
    rcases mem_run hag hg with hg | ⟨rfl, hcall⟩ | hx
    · exact h.staffed v g hg ht
    · rcases htearing g hcall ht with ht | ⟨hfb, hne⟩
      · exact h.staffed v f hmem ht
      · rw [hbegin hfb]
        omega
    · exact (hposted v g hx).2.1 ht
  · rcases mem_run hag hg with hg | ⟨-, hcall⟩ | hx
    · exact h.index v i hg
    · exact hindex i hcall
    · exact absurd rfl ((hposted v _ hx).2.2 i)
  · rcases mem_run hag hg with hg | ⟨rfl, hcall⟩ | hx
    · exact h.central v g hg hc
    · rcases hcentral g hcall hc with hv | hfc | hfb | ⟨i, hfi⟩
      · exact hv
      · exact h.central v f hmem hfc
      · exact hbegin hfb
      · exact (hown i hfi).2
    · rcases lived_posts hl hx with ⟨hv, -⟩ | ⟨hv, -⟩ | ⟨-, rfl⟩ | ⟨-, rfl⟩
      · exact hv
      · exact hv
      · exact hc.elim
      · exact hc.elim
  · refine run_pairwise (fun hvw => ?_) (fun _ => h.behind v hv) fun g hx a ha => ?_
    · subst hvw
      have hpair := h.behind v hv
      rw [hag, List.pairwise_cons] at hpair
      rcases lived_flushes hl fun i hfi => hv (hown i hfi).2 with ⟨hfl, ⟨g, hcalls⟩, -⟩ | ⟨-, hcalls⟩
      · -- it was the last call
        have hrest : rest = [] := List.eq_nil_iff_forall_not_mem.2 fun g hg => hpair.1 g hg hfl
        rw [hcalls, hrest]
        exact List.pairwise_singleton _ _
      · refine List.pairwise_append.2 ⟨?_, hpair.2, fun a ha b _ => hcalls a ha⟩
        exact List.pairwise_of_forall_mem_list fun a ha b _ => hcalls a ha
    · obtain ⟨hvw, hnone⟩ := h.untold ho hord hcourse hag hl hv hx
      rw [if_neg hvw] at ha
      exact hnone a ha
  · rw [hworkers] at hlt
    intro g hg
    obtain ⟨hbefore, hcase⟩ := h.untold_run ho hord hcourse hag hl hlt hs hzero
    rcases hcase with hold | ⟨rfl, rfl⟩ | ⟨rfl, -, rc, hrc, rfl⟩
    · -- the worker is gone already
      have hgone := h.gone hbefore v hv hlt hold
      rcases mem_run hag hg with hg | ⟨rfl, hcall⟩ | hx
      · exact hgone g hg
      · have hleaving := hgone f hmem
        cases hl with
        | finishPosted | finishFailed =>
          obtain rfl := List.mem_singleton.1 hcall
          trivial
        | exited => cases hcall
        | _ => exact hleaving.elim
      · rcases lived_posts hl hx with ⟨rfl, -⟩ | ⟨rfl, -⟩ | ⟨rfl, -⟩ | ⟨rfl, -⟩
        · exact absurd rfl hv
        · exact absurd rfl hv
        · exact (hord.started hbefore w _ hmem trivial).elim
        · have hle := weight_le_weigh (e := e) (LifeFrame.tells v) hw hmem
          simp [LifeFrame.tells] at hle
          omega
    · -- it gives up its channel with nothing behind it
      have hpair := h.behind w hv
      rw [hag, List.pairwise_cons] at hpair
      have hrest : rest = [] := List.eq_nil_iff_forall_not_mem.2 fun g hg => hpair.1 g hg trivial
      cases hl with
      | released =>
        rw [run_agenda, if_pos rfl, hrest, if_neg hv] at hg
        obtain rfl : g = .postFinish := by simpa using hg
        trivial
    · -- it cannot be told, and has nothing to do
      have hnone := hcut v rc rfl rfl hrc
      rcases mem_run hag hg with hg | ⟨rfl, -⟩ | hx
      · rw [hnone] at hg
        cases hg
      · rw [hnone] at hag
        cases hag
      · cases hl with
        | shutdownFailed => cases hx
        | shutdownPosted => exact absurd rfl hrc

/-- The first calls, of the application thread alone. -/
theorem telling_single {fs : List LifeFrame} (hag : κ.agenda = Function.update (fun _ => []) 0 fs)
    (hs : κ.ctx.shutdownStarted = false) (hfs : ∀ g ∈ fs, ¬ g.Tearing) : Telling e κ := by
  have hmem : ∀ v, ∀ g ∈ κ.agenda v, v = 0 ∧ g ∈ fs := by
    intro v g hg
    rw [hag, Function.update_apply] at hg
    split at hg
    · exact ⟨‹v = 0›, hg⟩
    · cases hg
  refine ⟨fun i _ => ?_, fun v g hg => .inl (hmem v g hg).1, fun v g hg ht => absurd ht (hfs g (hmem v g hg).2),
    fun v i hg => absurd trivial (hfs _ (hmem v _ hg).2), fun v g hg _ => (hmem v g hg).1, fun v hv => ?_,
    fun hs' => (nomatch hs.symm.trans hs')⟩
  · rw [weigh_calm fun v g hg => hfs g (hmem v g hg).2]
    exact Nat.zero_le 1
  · rw [hag, Function.update_of_ne hv]
    exact .nil

/-- A step that runs no call adds none that weighs anything, on any reactor. -/
theorem aside_weigh (ha : Aside e s κ') (weight : Nat → LifeFrame → Nat) (h1 : weight 0 .beginShutdown = 0)
    (h2 : ∀ rc error, weight 0 (.requestShutdown rc error) = 0) : κ'.weigh e weight = s.cycle.weigh e weight := by
  cases ha with
  | idle | counted | stops => rfl
  | event rc error => exact weigh_first (zero_reactors e) weight (h2 rc error)
  | owner c κ ho =>
    cases ho with
    | beginPosted =>
      have hput := weigh_put (κ := s.cycle) (zero_reactors e) weight (s.cycle.agenda 0 ++ [.beginShutdown])
      rw [List.map_append, List.sum_append, List.map_singleton, List.sum_singleton, h1] at hput
      exact Nat.add_right_cancel hput
    | _ => rfl

/-- Only the application thread's agenda changes in such a step. -/
theorem aside_agenda (ha : Aside e s κ') (hv : v ≠ 0) : κ'.agenda v = s.cycle.agenda v := by
  cases ha with
  | idle | counted | stops => rfl
  | event rc error => exact Function.update_of_ne hv _ _
  | owner c κ ho =>
    cases ho with
    | beginPosted => exact Function.update_of_ne hv _ _
    | _ => rfl

theorem Telling.aside (h : Telling e s.cycle) (ha : Aside e s κ') : Telling e κ' := by
  obtain ⟨-, -, hworkers, -, -, hnew⟩ := ha.beside
  have hweigh : ∀ i, κ'.weigh e (LifeFrame.tells i) = s.cycle.weigh e (LifeFrame.tells i) := fun i =>
    aside_weigh ha _ rfl fun _ _ => rfl
  have hmem : ∀ v, ∀ g ∈ κ'.agenda v, g ∈ s.cycle.agenda v ∨ v = 0 ∧ ¬ g.Tearing ∧ ¬ g.Central := by
    intro v g hg
    by_cases hv : v = 0
    · rcases hnew v g hg with hg | rfl | ⟨rc, error, rfl⟩
      · exact .inl hg
      · exact .inr ⟨hv, id, id⟩
      · exact .inr ⟨hv, id, id⟩
    · exact .inl (aside_agenda ha hv ▸ hg)
  refine ⟨fun i hi => ?_, fun v g hg => ?_, fun v g hg ht => ?_, fun v i hg => ?_, fun v g hg hc => ?_, fun v hv => ?_,
    fun hs v hv hlt hzero => ?_⟩
  · rw [hweigh]
    exact h.told i (hworkers ▸ hi)
  · rw [hworkers]
    rcases hmem v g hg with hg | ⟨hv, -⟩
    · exact h.hosted v g hg
    · exact .inl hv
  · rw [hworkers]
    rcases hmem v g hg with hg | ⟨-, hno, -⟩
    · exact h.staffed v g hg ht
    · exact absurd ht hno
  · rcases hmem v _ hg with hg | ⟨-, hno, -⟩
    · exact h.index v i hg
    · exact absurd trivial hno
  · rcases hmem v g hg with hg | ⟨hv, -⟩
    · exact h.central v g hg hc
    · exact hv
  · rw [aside_agenda ha hv]
    exact h.behind v hv
  · rw [aside_agenda ha hv]
    exact h.gone (ha.members.1.symm.trans hs) v hv (hworkers ▸ hlt) ((hweigh v).symm.trans hzero)

end SpdkBdevContext
end SpdkConnector
