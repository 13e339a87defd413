import SpdkConnector.Runtime.Sharing

/-!
# One application in a process (spdk/spdk_runtime.cpp:131-176)

`spdk_app_start` is called at most once, and all contexts that get the runtime have asked for equal configurations
(`one_application`). Once it has been called and nobody has the runtime or is about to get it, nobody gets one again.
-/

namespace SpdkConnector
namespace SpdkRuntime

open Interleaving SpdkBdevContext

variable {strerror : Nat → String} {p p' : Registry} {r r' : Runtime} {i : Nat} {t : Actor}

/-! ## One application -/

theorem Threaded.config {notify : Bool} (h : Threaded strerror r r' notify) : r'.config = r.config := by
  cases h with
  | started appThread => cases appThread <;> rfl
  | ended rc =>
    unfold onAppReturn
    split <;> rfl
  | _ => rfl

/-- The constructor of the runtime is at work. -/
def AcquirePc.Constructing : AcquirePc → Prop
  | .waiting | .sleeping | .joining => True
  | _ => False

structure Once (p : Registry) : Prop where
  starts : p.starts = if p.runtimeStartedOnce then 1 else 0
  before : ∀ r, p.runtime = some r → r.thread.Before → p.runtimeStartedOnce = false
  asked : ∀ m r, p.mutex = some m → m.pc.Constructing → p.runtime = some r → r.config = m.requested
  same : ∀ g ∈ p.granted, ∀ g' ∈ p.granted, g.2 = g'.2
  config : ∀ g ∈ p.granted, ∀ r, p.runtime = some r → g.2 = r.config
  members : ∀ i, .member i ∈ p.holders → ∃ c, (i, c) ∈ p.granted

theorem Once.refuse (h : Once p) {env : Env} {error : String} (hs : p.refuse i env error = some p') : Once p' := by
  obtain ⟨w', -, rfl⟩ := Option.map_eq_some_iff.1 hs
  exact { h with }

theorem Once.grant (h : Once p) {env : Env} {config : Plugin.SpdkRuntimeConfig} (hr : p.runtime = some r)
    (hconfig : r.config = config) (hs : p.grant i env config = some p') : Once p' := by
  obtain ⟨w', -, rfl⟩ := Option.map_eq_some_iff.1 hs
  have hall : ∀ g ∈ p.granted ++ [(i, config)], g.2 = config := by
    intro g hg
    rcases List.mem_append.1 hg with hg | hg
    · exact (h.config g hg r hr).trans hconfig
    · rw [List.mem_singleton.1 hg]
  refine { h with same := fun g hg g' hg' => (hall g hg).trans (hall g' hg').symm, config := ?_, members := ?_ }
  · intro g hg r' hr'
    obtain rfl : r = r' := by simpa [hr] using hr'
    exact (hall g hg).trans hconfig.symm
  · intro j hj
    rcases List.mem_cons.1 hj with hj | hj
    · cases hj
      exact ⟨config, by simp⟩
    · obtain ⟨c, hc⟩ := h.members j hj
      exact ⟨c, List.mem_append_left _ hc⟩

theorem Once.giveUp (h : Once p) (x : Holder) (i : Nat) (t : Actor) : Once (p.giveUp x i t) :=
  { h with members := fun j hj => h.members j (List.mem_of_mem_erase hj) }

/-- The holder of the mutex goes on. -/
theorem Once.mutex (h : Once p) {m : Option Acquiring}
    (hm : ∀ x r, m = some x → x.pc.Constructing → p.runtime = some r → r.config = x.requested) :
    Once { p with mutex := m } :=
  { h with asked := hm }

theorem acquire_once {env : Env} {requested : Except Exn Plugin.SpdkRuntimeConfig} (hsh : Shared p) (h : Once p)
    (hs : p.acquire i env requested = some p') : Once p' := by
  unfold Registry.acquire at hs
  split at hs
  · exact h.refuse hs
  · split at hs
    · cases hs
    · split at hs
      · rename_i r x hs' hruntime hholders
        split at hs
        · exact h.grant hruntime ‹_› hs
        · cases hs
          refine { h with asked := ?_, members := fun j hj => h.members j (by simpa using hj) }
          intro x r' hx hc
          cases hx
          exact hc.elim
      · split at hs
        · exact h.refuse hs
        · rename_i honce
          have honce : p.runtimeStartedOnce = false := by simpa using honce
          have hgranted : p.granted = [] := by
            by_contra hg
            exact absurd ((hsh.granted hg).symm.trans honce) (by simp)
          cases hs
          refine { h with before := fun _ _ _ => honce, asked := ?_, config := by simp [hgranted] }
          intro x r' hx hc hr'
          cases hx
          cases hr'
          rfl

theorem acquirer_once (h : Once p) (hs : p.acquirerStep = some p') : Once p' := by
  unfold Registry.acquirerStep at hs
  split at hs
  · cases hs
    refine (h.giveUp .acquirer _ .owner).mutex ?_
    intro x r hx hc
    cases hx
    exact hc.elim
  · split at hs
    · cases hs
    · exact (h.mutex (m := none) (by simp)).refuse hs
  · rename_i i env requested r hmutex hruntime
    have hasked : r.config = requested := h.asked _ r hmutex trivial hruntime
    have hmove : ∀ pc, Once { p with mutex := some ⟨i, env, requested, pc⟩ } := by
      intro pc
      refine h.mutex fun x r' hx _ hr' => ?_
      cases hx
      obtain rfl : r = r' := by simpa [hruntime] using hr'
      exact hasked
    split at hs
    · cases hs
      exact hmove .sleeping
    · split at hs
      · exact (h.mutex (m := none) (by simp)).grant hruntime hasked hs
      · cases hs
        exact hmove .joining
  · rename_i i env requested r hmutex hruntime
    cases hs
    refine h.mutex fun x r' hx _ hr' => ?_
    cases hx
    exact h.asked ⟨i, env, requested, .sleeping⟩ r' hmutex trivial hr'
  · split at hs
    · have hnext : Once { p with mutex := none, runtime := none } :=
        { h with before := by simp, asked := by simp, config := by simp }
      exact hnext.refuse hs
    · cases hs
  · cases hs

theorem Once.notifyAll (h : Once p) : Once p.notifyAll := by
  unfold Registry.notifyAll
  split
  · rename_i i env requested hmutex
    refine h.mutex fun x r hx _ hr => ?_
    cases hx
    exact h.asked ⟨i, env, requested, .sleeping⟩ r hmutex trivial hr
  · exact h

theorem thread_once {c : ThreadChoice} (h : Once p) (hs : p.threadStep strerror c = some p') : Once p' := by
  unfold Registry.threadStep at hs
  split at hs
  · cases hs
  · rename_i r hruntime
    split at hs
    · cases hs
    · obtain ⟨⟨r', notify⟩, hstep, hs⟩ := Option.bind_eq_some_iff.1 hs
      obtain ⟨q, hq, rfl⟩ := Option.map_eq_some_iff.1 hs
      obtain ⟨w', rfl⟩ := become_eq hq
      have hthreaded := threadStep_threaded hstep
      have hnext : Once { p with
          world := w'
          runtime := some r'
          runtimeStartedOnce := p.runtimeStartedOnce || r.thread == .entering
          starts := if r.thread = .entering then p.starts + 1 else p.starts } := by
        refine { h with starts := ?_, before := ?_, asked := ?_, config := ?_ }
        · by_cases he : r.thread = .entering
          · have hno := h.before r hruntime (by rw [he]; trivial)
            simp [he, h.starts, hno]
          · simp [he, h.starts]
        · intro r0 hr0 hb
          cases hr0
          have hbefore := h.before r hruntime
          cases hthreaded with
          | flagged flag todo hpc | set hpc => simpa [hpc] using hbefore (by rw [hpc]; trivial)
          | started appThread hpc => cases appThread <;> exact hb.elim
          | ended rc hpc =>
            unfold onAppReturn at hb
            split at hb <;> exact hb.elim
          | _ => exact hb.elim
        · intro x r0 hx hc hr0
          cases hr0
          exact hthreaded.config.trans (h.asked x r hx hc hruntime)
        · intro g hg r0 hr0
          cases hr0
          exact (h.config g hg r hruntime).trans hthreaded.config.symm
      cases notify with
      | true => exact hnext.notifyAll
      | false => exact hnext

theorem contexts_once {a : WorldAction} (hsh : Shared p) (h : Once p) (hs : p.contextsStep a = some p') : Once p' := by
  obtain ⟨w', hw, rfl⟩ := Option.map_eq_some_iff.1 hs
  have hworld : Once { p with world := w' } := { h with }
  dsimp only
  split
  · split
    · exact hworld.giveUp _ _ _
    · exact hworld
  · split
    · exact hworld.giveUp _ _ _
    · exact hworld
  · split
    · rename_i i b x s releasing hphase
      refine { h with before := ?_, asked := ?_, config := ?_, members := fun j hj => h.members j ?_ }
      · intro q hq hb
        obtain ⟨r, hr, hasked⟩ := application_some hq
        exact h.before r hr (hasked.thread.2 hb)
      · intro x q hx hc hq
        obtain ⟨r, hr, hasked⟩ := application_some hq
        exact hasked.fields.1.trans (h.asked x r hx hc hr)
      · intro g hg q hq
        obtain ⟨r, hr, hasked⟩ := application_some hq
        exact (h.config g hg r hr).trans hasked.fields.1.symm
      · refine ((references_member hsh.nodup ?_).1 hj).1
        rw [hsh.members]
        simp [Context.Shares, hphase]
    · exact hworld
  · exact hworld

theorem destructor_once {rc : Int} (h : Once p) (hs : p.destructorStep rc = some p') : Once p' := by
  -- the object is another one, with the configuration it had
  have hkeep : ∀ (r r' : Runtime) (w : World) (d : Option (Nat × Actor × DestructorPc)), p.runtime = some r →
      r'.config = r.config → (r'.thread.Before → r.thread.Before) →
      Once { p with world := w, runtime := some r', destructor := d } := by
    intro r r' w d hr hconfig hbefore
    refine { h with before := ?_, asked := ?_, config := ?_ }
    · intro r0 hr0 hb
      cases hr0
      exact h.before r hr (hbefore hb)
    · intro x r0 hx hc hr0
      cases hr0
      exact hconfig.trans (h.asked x r hx hc hr)
    · intro g hg r0 hr0
      cases hr0
      exact (h.config g hg r hr).trans hconfig.symm
  unfold Registry.destructorStep at hs
  split at hs
  · rename_i i t r hpc hruntime
    split at hs
    · cases hs
    · obtain ⟨q, hq, rfl⟩ := Option.map_eq_some_iff.1 hs
      obtain ⟨w', rfl⟩ := become_eq hq
      exact hkeep r _ w' _ hruntime rfl id
  · rename_i i t r hpc hruntime
    cases hs
    refine hkeep r _ p.world _ hruntime ?_ ?_
    · split
      · rfl
      · exact (spdkAppStop_asked r rc).fields.1
    · split
      · exact id
      · exact (spdkAppStop_asked r rc).thread.2
  · split at hs
    · cases hs
      exact { h with before := by simp, asked := by simp, config := by simp }
    · cases hs
  · cases hs

theorem once_step {a : RegistryAction} (hsh : Shared p) (h : Once p) (hs : registryStep strerror p a = some p') :
    Once p' := by
  cases a with
  | acquire i env environment isFile config =>
    simp only [registryStep] at hs
    split at hs
    · split at hs
      · cases hs
      · exact acquire_once hsh h hs
    · cases hs
  | acquirer => exact acquirer_once h hs
  | thread c => exact thread_once h hs
  | world a =>
    simp only [registryStep] at hs
    split at hs
    · exact contexts_once hsh h hs
    · cases hs
  | leave i t =>
    simp only [registryStep] at hs
    split at hs
    · cases hs
      exact h.giveUp _ _ _
    · cases hs
  | destructor rc => exact destructor_once h hs

theorem init_once : Once {} := ⟨rfl, by simp, by simp, by simp, by simp, by simp⟩

/-! ## No second one -/

/-- The application has been started, and nobody has the runtime or is about to get it. -/
structure Registry.Over (p : Registry) : Prop where
  once : p.runtimeStartedOnce = true
  holders : p.holders = []
  mutex : ¬ Constructs p.mutex

theorem over_refuse (ho : p.Over) {env : Env} {error : String} (hs : p.refuse i env error = some p') :
    p'.Over ∧ p'.granted = p.granted := by
  obtain ⟨w', -, rfl⟩ := Option.map_eq_some_iff.1 hs
  exact ⟨{ ho with }, rfl⟩

theorem over_acquirer (hsh : Shared p) (ho : p.Over) (hs : p.acquirerStep = some p') :
    p'.Over ∧ p'.granted = p.granted := by
  unfold Registry.acquirerStep at hs
  split at hs
  · rename_i i env requested hmutex
    have hm : .acquirer ∈ p.holders := hsh.comparing.2 ⟨i, env, requested, hmutex⟩
    exact absurd hm (by simp [ho.holders])
  · split at hs
    · cases hs
    · exact over_refuse (p := { p with mutex := none }) ⟨ho.once, ho.holders, by simp [Constructs]⟩ hs
  · rename_i i env requested r hmutex hruntime
    exact absurd ⟨i, env, requested, _, hmutex, .inl rfl⟩ ho.mutex
  · rename_i i env requested r hmutex hruntime
    exact absurd ⟨i, env, requested, _, hmutex, .inr (.inl rfl)⟩ ho.mutex
  · rename_i i env requested r hmutex hruntime
    exact absurd ⟨i, env, requested, _, hmutex, .inr (.inr rfl)⟩ ho.mutex
  · cases hs

theorem over_thread {c : ThreadChoice} (ho : p.Over) (hs : p.threadStep strerror c = some p') :
    p'.Over ∧ p'.granted = p.granted := by
  unfold Registry.threadStep at hs
  split at hs
  · cases hs
  · split at hs
    · cases hs
    · obtain ⟨⟨r', notify⟩, -, hs⟩ := Option.bind_eq_some_iff.1 hs
      obtain ⟨q, hq, rfl⟩ := Option.map_eq_some_iff.1 hs
      obtain ⟨w', rfl⟩ := become_eq hq
      cases notify with
      | true =>
        simp only [if_true, Registry.notifyAll]
        split
        · rename_i i env requested hmutex
          exact absurd ⟨i, env, requested, _, hmutex, .inr (.inl rfl)⟩ ho.mutex
        · exact ⟨⟨by simp [ho.once], ho.holders, ho.mutex⟩, rfl⟩
      | false => exact ⟨⟨by simp [ho.once], ho.holders, ho.mutex⟩, rfl⟩

theorem over_contexts {a : WorldAction} (hsh : Shared p) (ho : p.Over) (hs : p.contextsStep a = some p') :
    p'.Over ∧ p'.granted = p.granted := by
  obtain ⟨w', -, rfl⟩ := Option.map_eq_some_iff.1 hs
  have hgive : ∀ x i t, (Registry.giveUp { p with world := w' } x i t).Over := by
    intro x i t
    exact ⟨ho.once, by simp [Registry.giveUp, ho.holders], ho.mutex⟩
  dsimp only
  split
  · split
    · exact ⟨hgive _ _ _, rfl⟩
    · exact ⟨{ ho with }, rfl⟩
  · split
    · exact ⟨hgive _ _ _, rfl⟩
    · exact ⟨{ ho with }, rfl⟩
  · split
    · rename_i j b x s releasing hphase
      have hno : s.ctx.runtime = false := by
        by_contra hyes
        have hm : .member j ∈ p.holders := (hsh.members j).2 (by simpa [Context.Shares, hphase] using hyes)
        exact absurd hm (by simp [ho.holders])
      exact ⟨⟨ho.once, (references_unshared hno _ _ _).trans ho.holders, ho.mutex⟩, rfl⟩
    · exact ⟨{ ho with }, rfl⟩
  · exact ⟨{ ho with }, rfl⟩

theorem over_step {a : RegistryAction} (hsh : Shared p) (ho : p.Over) (hs : registryStep strerror p a = some p') :
    p'.Over ∧ p'.granted = p.granted := by
  cases a with
  | acquire i env environment isFile config =>
    simp only [registryStep] at hs
    split at hs
    · split at hs
      · cases hs
      · unfold Registry.acquire at hs
        split at hs
        · exact over_refuse ho hs
        · split at hs
          · cases hs
          · split at hs
            · rename_i r x hs' hruntime hholders
              exact absurd (ho.holders.symm.trans hholders) (by simp)
            · rw [if_pos ho.once] at hs
              exact over_refuse ho hs
    · cases hs
  | acquirer => exact over_acquirer hsh ho hs
  | thread c => exact over_thread ho hs
  | world a =>
    simp only [registryStep] at hs
    split at hs
    · exact over_contexts hsh ho hs
    · cases hs
  | leave i t =>
    simp [registryStep, ho.holders] at hs
  | destructor rc =>
    simp only [registryStep, Registry.destructorStep] at hs
    split at hs
    · split at hs
      · cases hs
      · obtain ⟨q, hq, rfl⟩ := Option.map_eq_some_iff.1 hs
        obtain ⟨w', rfl⟩ := become_eq hq
        exact ⟨{ ho with }, rfl⟩
    · cases hs
      exact ⟨{ ho with }, rfl⟩
    · split at hs
      · cases hs
        exact ⟨{ ho with }, rfl⟩
      · cases hs
    · cases hs

/-- **One application**: in every run, `spdk_app_start` is called at most once; the contexts that `Acquire` has
returned the runtime to have asked for equal configurations, those that have it are among them, and it is theirs. And
once the application has been started and nobody has the runtime or is about to get it, no continuation returns it to
a context again. -/
theorem one_application {as : List RegistryAction} (h : runFrom (registryStep strerror) {} as = some p) :
    p.starts ≤ 1 ∧ (∀ g ∈ p.granted, ∀ g' ∈ p.granted, g.2 = g'.2) ∧
    (∀ i, (p.world.context i).Shares → ∃ r, p.runtime = some r ∧ (i, r.config) ∈ p.granted) ∧
    (p.Over → ∀ bs p', runFrom (registryStep strerror) p bs = some p' → p'.granted = p.granted ∧
      ∀ i, ¬ (p'.world.context i).Shares) := by
  obtain ⟨hsh, honce⟩ : Shared p ∧ Once p :=
    run_invariant (I := fun q => Shared q ∧ Once q)
      (fun _ _ _ hi _ hs => ⟨shared_step hi.1 hs, once_step hi.1 hi.2 hs⟩) ⟨init_shared, init_once⟩ (guarded_true _ _) h
  refine ⟨?_, honce.same, fun i hi => ?_, fun ho bs p' hrun => ?_⟩
  · rw [honce.starts]
    split <;> simp
  · have hm := (hsh.members i).2 hi
    obtain ⟨-, -, r, hr, -⟩ := hsh.up (List.ne_nil_of_mem hm)
    obtain ⟨c, hc⟩ := honce.members i hm
    exact ⟨r, hr, honce.config _ hc r hr ▸ hc⟩
  · obtain ⟨hsh', ho', hgranted⟩ : Shared p' ∧ p'.Over ∧ p'.granted = p.granted :=
      run_invariant (I := fun q => Shared q ∧ q.Over ∧ q.granted = p.granted)
        (fun q a q' hi _ hs => by
          obtain ⟨h1, h2⟩ := over_step hi.1 hi.2.1 hs
          exact ⟨shared_step hi.1 hs, h1, h2.trans hi.2.2⟩)
        ⟨hsh, ho, rfl⟩ (guarded_true _ _) hrun
    refine ⟨hgranted, fun i hi => ?_⟩
    exact absurd ((hsh'.members i).2 hi) (by simp [ho'.holders])

/-- Context 0 is closed, the runtime is destroyed, and context 1 asks for one. -/
theorem one_application_closed : ∃ p p',
    runFrom (registryStep fun _ => "") {} (startingRun ++ closingRun 0) = some p ∧
    runFrom (registryStep fun _ => "") p [.destructor 0, .destructor 0, .thread .stopCallback, .thread (.appReturns 0),
      .thread .next, .thread .next, .destructor 0, plainAcquire 1 "bdev"] = some p' ∧
    p'.runtime.isNone ∧ p'.granted = p.granted := by
  have hrun : (runFrom (registryStep fun _ => "") {} (startingRun ++ closingRun 0)).any (fun p =>
      p.runtimeStartedOnce && p.holders = [] && p.mutex.isNone &&
      (runFrom (registryStep fun _ => "") p [.destructor 0, .destructor 0, .thread .stopCallback,
        .thread (.appReturns 0), .thread .next, .thread .next, .destructor 0, plainAcquire 1 "bdev"]).any
        fun p' => p'.runtime.isNone) = true := by decide +kernel
  obtain ⟨p, hp, hall⟩ := (Option.any_eq_true _ _).1 hrun
  simp only [Bool.and_eq_true, decide_eq_true_eq, Option.isNone_iff_eq_none] at hall
  obtain ⟨⟨⟨honce, hnil⟩, hmutex⟩, hrest⟩ := hall
  obtain ⟨p', hp', hnone⟩ := (Option.any_eq_true _ _).1 hrest
  have hover : p.Over := ⟨honce, hnil, by simp [Constructs, hmutex]⟩
  exact ⟨p, p', hp, hp', hnone, ((one_application hp).2.2.2 hover _ p' hp').1⟩

end SpdkRuntime
end SpdkConnector
