import SpdkConnector.Runtime.Sharing
import SpdkConnector.Context.Lending

/-!
# Where the runtime is destroyed

`~SpdkRuntime()` waits for the reactors to end, so a reactor that is in it waits for itself (`destroyed_on_reactor`). A
reactor has a reference only while it is in `request_shutdown`, and not the last one as long as the context still has
its `runtime_`: where the messages of a teardown are delivered, and no close overtakes a reactor that is in there, the
runtime is destroyed on other threads (`destroyed_elsewhere`).
-/

namespace SpdkConnector
namespace SpdkRuntime

open Interleaving SpdkBdevContext

variable {strerror : Nat → String} {p p' : Registry} {w' : World} {x y : Context} {i j v : Nat} {t : Actor}
  {hs : List Holder} {s : Sys} {available : Bool}

/-- The messages of a teardown are delivered (`delivers`), and the step overtakes no reactor that has its copy of the
runtime from `request_shutdown` (`Sys.spares`). -/
def Registry.patient (p : Registry) : RegistryAction → Bool
  | .world (.context i a) =>
    match (p.world.context i).phase with
    | .live s _ =>
      delivers s a && p.holders.all fun
        | .copy j (.reactor v) => j != i || s.spares v a
        | _ => true
    | _ => true
  | _ => true

/-! ## A context -/

/-- Its constructor has got the runtime, and has not thrown. -/
def Context.Built (x : Context) : Prop :=
  match x.phase with
  | .absent | .failed _ => False
  | _ => True

structure Context.Attended (x : Context) : Prop where
  env : x.Built → 0 < x.env.ioThreadCount
  live : ∀ s releasing, x.phase = .live s releasing → SpdkBdevContext.Attended x.env s

/-- Its close waits for reactor `v` to leave `request_shutdown`. -/
def Context.Waits (x : Context) (v : Nat) : Prop :=
  ∃ s releasing, x.phase = .live s releasing ∧ Held x.env s.cycle v

theorem Context.Waits.shares (h : x.Waits v) : x.Shares := by
  obtain ⟨s, releasing, hphase, hheld⟩ := h
  have hruntime : s.ctx.runtime = true := hheld.runtime
  simp [Context.Shares, hphase, hruntime]

theorem liveStep_step {env : Env} {releasing : Bool} {a : Action} {z : Sys × Bool}
    (h : liveStep env s releasing a = some z) : step env s a = some z.1 := by
  have hother : ∀ a, ((step env s a).map fun s' => (s', releasing)) = some z → step env s a = some z.1 := by
    intro a hs
    obtain ⟨s', hstep, rfl⟩ := Option.map_eq_some_iff.1 hs
    exact hstep
  cases a with
  | runtimeStops => cases h
  | owner c =>
    simp only [liveStep] at h
    split at h
    · cases h
    · obtain ⟨s', hstep, rfl⟩ := Option.map_eq_some_iff.1 h
      exact hstep
  | reactor u c => exact hother (.reactor u c) h
  | caller b c => exact hother (.caller b c) h
  | submit operation items memory => exact hother (.submit operation items memory) h
  | transfer u k n => exact hother (.transfer u k n) h
  | disturb u k noise => exact hother (.disturb u k noise) h

theorem became_attended {a : WorldAction} (h : x.Attended) (hb : Became available x a y)
    (henv : ∀ i env, a = .construct i env none → 0 < env.ioThreadCount)
    (hdelivers : ∀ i b s releasing, a = .context i b → x.phase = .live s releasing → delivers s b = true) :
    y.Attended := by
  cases hb with
  | constructed i env error hx =>
    refine ⟨fun hbuilt => ?_, fun s releasing hs => ?_⟩
    · cases error with
      | none => exact henv i env rfl
      | some error => exact False.elim hbuilt
    · cases error <;> cases hs
  | refused i error hx => exact ⟨fun hbuilt => False.elim hbuilt, fun s releasing hs => by cases hs⟩
  | claimed i hx => exact ⟨fun _ => h.env (by simp [Context.Built, hx]), fun s releasing hs => by cases hs⟩
  | unsent i rc device error hx => exact ⟨fun _ => h.env (by simp [Context.Built, hx]), fun s releasing hs => by cases hs⟩
  | sent i device hx ha =>
    refine ⟨fun _ => h.env (by simp [Context.Built, hx]), fun s releasing hs => ?_⟩
    cases hs
    exact init_attended device
  | abandoned i error hx => exact ⟨fun hbuilt => False.elim hbuilt, fun s releasing hs => by cases hs⟩
  | stepped i a s releasing z hx hl =>
    have hn : 0 < x.env.ioThreadCount := h.env (by simp [Context.Built, hx])
    refine ⟨fun _ => hn, fun s' releasing' hs => ?_⟩
    cases hs
    exact attended_step hn (h.live s releasing hx) (hdelivers i a s releasing rfl hx) (liveStep_step hl)
  | released i s hx =>
    refine ⟨fun _ => h.env (by simp [Context.Built, hx]), fun s' releasing hs => ?_⟩
    cases hs
    exact h.live s true hx

theorem became_waits {a : WorldAction} (h : x.Attended) (hw : x.Waits v) (hb : Became available x a y)
    (hspares : ∀ i b s releasing, a = .context i b → x.phase = .live s releasing → s.spares v b = true ∧
      ∀ c, b = .reactor v c → (s.reactor v).stack.head? = some (.life .postBeginShutdown)) : y.Waits v := by
  obtain ⟨s, releasing, hphase, hheld⟩ := hw
  cases hb with
  | constructed i env error hx => cases hphase.symm.trans hx
  | refused i error hx => cases hphase.symm.trans hx
  | claimed i hx => cases hphase.symm.trans hx
  | unsent i rc device error hx => cases hphase.symm.trans hx
  | sent i device hx ha => cases hphase.symm.trans hx
  | abandoned i error hx => cases hphase.symm.trans hx
  | stepped i b s' releasing' z hx hl =>
    cases hphase.symm.trans hx
    obtain ⟨hspare, hposts⟩ := hspares i b s releasing rfl hphase
    exact ⟨z.1, z.2, rfl, held_step (h.live s releasing hphase) hheld hposts hspare (liveStep_step hl)⟩
  | released i s' hx =>
    cases hphase.symm.trans hx
    exact ⟨s, false, rfl, hheld⟩

/-- The copies of reactors after a step: a new one is taken in `request_shutdown`. -/
theorem references_copy {a : Action} (h : .copy j (.reactor v) ∈ references hs i s a) :
    .copy j (.reactor v) ∈ hs ∨ j = i ∧ a = .reactor v .next ∧ ∃ rc error stack,
      (s.reactor v).stack = .life (.requestShutdown rc error) :: stack ∧ (requestShutdown s rc error).2 = true := by
  unfold references at h
  split at h
  · split at h
    · rename_i rc error hhead
      split at h
      · rename_i hstart
        rcases List.mem_cons.1 h with h | h
        · cases h
          obtain ⟨stack, hst⟩ := List.head?_eq_some_iff.1 hhead
          exact .inr ⟨rfl, rfl, rc, error, stack, hst, hstart⟩
        · exact .inl h
      · exact .inl h
    · exact .inl h
  · split at h
    · split at h
      · exact .inl h
      · exact .inl (by simpa using h)
    · exact .inl h
  · split at h
    · split at h
      · exact .inl (by simpa using h)
      · exact .inl h
    · split at h
      · rcases List.mem_cons.1 h with h | h
        · cases h
        · exact .inl (List.mem_of_mem_erase h)
      · exact .inl h
    · exact .inl h
  · exact .inl h

/-! ## The registry -/

structure Minded (p : Registry) : Prop where
  asked : ∀ m, p.mutex = some m → 0 < m.env.ioThreadCount
  contexts : ∀ i, (p.world.context i).Attended
  copies : ∀ i v, .copy i (.reactor v) ∈ p.holders → (p.world.context i).Waits v
  elsewhere : ∀ i v pc, p.destructor ≠ some (i, .reactor v, pc)

/-- On a reactor it is not the last reference that is given up. -/
theorem Minded.giveUp (h : Minded p) {x : Holder} (ht : ∀ v, t = .reactor v → p.holders.erase x ≠ []) :
    Minded (p.giveUp x i t) := by
  refine ⟨h.asked, h.contexts, fun j v hm => h.copies j v (List.mem_of_mem_erase hm), fun j v pc hd => ?_⟩
  simp only [Registry.giveUp] at hd
  split at hd
  · rename_i hnil
    cases hd
    exact ht v rfl hnil
  · exact h.elsewhere j v pc hd

theorem construct_minded (h : Minded p) {env : Env} {error : Option String} (hn : error = none → 0 < env.ioThreadCount)
    (hw : worldStep p.world (.construct i env error) = some w') : Minded { p with world := w' } := by
  obtain ⟨y, claimed, hb, rfl⟩ := worldStep_became hw (by simp)
  refine ⟨h.asked, fun j => ?_, fun j v hm => ?_, h.elsewhere⟩
  · show ((p.world.setContext i y).context j).Attended
    rw [setContext_context]
    split
    · refine became_attended (h.contexts i) hb ?_ (by simp)
      intro i' env' heq
      cases heq
      exact hn rfl
    · exact h.contexts j
  · show ((p.world.setContext i y).context j).Waits v
    rw [setContext_context]
    split
    · rename_i hj
      subst hj
      exact became_waits (h.contexts j) (h.copies j v hm) hb (by simp)
    · exact h.copies j v hm

theorem Minded.refuse (h : Minded p) {env : Env} {error : String} (hs : p.refuse i env error = some p') : Minded p' := by
  obtain ⟨w', hw, rfl⟩ := Option.map_eq_some_iff.1 hs
  exact construct_minded h (by simp) hw

theorem Minded.grant (h : Minded p) {env : Env} {config : Plugin.SpdkRuntimeConfig} (hn : 0 < env.ioThreadCount)
    (hs : p.grant i env config = some p') : Minded p' := by
  obtain ⟨w', hw, rfl⟩ := Option.map_eq_some_iff.1 hs
  have hnext := construct_minded h (fun _ => hn) hw
  exact { hnext with copies := fun j v hm => hnext.copies j v (by simpa using hm) }

theorem makeRuntimeConfig_threads {environment : Plugin.Environment} {isFile : Bool} {config : Plugin.SpdkConfig}
    {requested : Plugin.SpdkRuntimeConfig} (h : Plugin.makeRuntimeConfig environment isFile config = .ok requested) :
    config.ioThreadCount ≠ 0 := by
  intro hzero
  unfold Plugin.makeRuntimeConfig at h
  split at h
  · cases h
  · rw [if_pos (.inr (.inr hzero))] at h
    cases h

theorem acquire_minded {env : Env} {requested : Except Exn Plugin.SpdkRuntimeConfig} (h : Minded p)
    (hn : ∀ c, requested = .ok c → 0 < env.ioThreadCount) (hs : p.acquire i env requested = some p') : Minded p' := by
  unfold Registry.acquire at hs
  split at hs
  · exact h.refuse hs
  · rename_i c
    have hn := hn c rfl
    split at hs
    · cases hs
    · split at hs
      · split at hs
        · exact h.grant hn hs
        · cases hs
          refine { h with asked := ?_, copies := fun j v hm => h.copies j v (by simpa using hm) }
          intro m hm
          cases hm
          exact hn
      · split at hs
        · exact h.refuse hs
        · cases hs
          refine { h with asked := ?_ }
          intro m hm
          cases hm
          exact hn

theorem acquirer_minded (h : Minded p) (hs : p.acquirerStep = some p') : Minded p' := by
  -- the holder of the mutex goes on
  have hmove : ∀ i env requested pc pc', p.mutex = some ⟨i, env, requested, pc⟩ →
      Minded { p with mutex := some ⟨i, env, requested, pc'⟩ } := by
    intro i env requested pc pc' hmutex
    refine { h with asked := ?_ }
    intro m hm
    cases hm
    have hn := h.asked _ hmutex
    exact hn
  have hleave : Minded { p with mutex := none } := { h with asked := by simp }
  unfold Registry.acquirerStep at hs
  split at hs
  · rename_i i env requested hmutex
    cases hs
    exact (hmove i env requested _ .refusing hmutex).giveUp (x := .acquirer) (i := i) (t := .owner) (by simp)
  · split at hs
    · cases hs
    · exact hleave.refuse hs
  · rename_i i env requested r hmutex hruntime
    split at hs
    · cases hs
      exact hmove i env requested _ .sleeping hmutex
    · split at hs
      · exact hleave.grant (h.asked _ hmutex) hs
      · cases hs
        exact hmove i env requested _ .joining hmutex
  · rename_i i env requested r hmutex hruntime
    cases hs
    exact hmove i env requested _ .waiting hmutex
  · split at hs
    · exact Minded.refuse (p := { p with mutex := none, runtime := none }) { hleave with } hs
    · cases hs
  · cases hs

/-- A context that sees the runtime stop. -/
theorem Context.Attended.stopped (h : x.Attended) {releasing : Bool} (hphase : x.phase = .live s releasing) :
    Context.Attended { x with phase := .live { s with runtimeAvailable := false } releasing } := by
  have hn : 0 < x.env.ioThreadCount := h.env (by simp [Context.Built, hphase])
  refine ⟨fun _ => hn, fun s' releasing' hs' => ?_⟩
  cases hs'
  have hstep : step x.env s .runtimeStops = some { s with runtimeAvailable := false } := rfl
  exact attended_step hn (h.live s releasing hphase) rfl hstep

/-- A reactor in `request_shutdown` goes on when the runtime has stopped. -/
theorem Context.Waits.stopped (h : x.Attended) (hw : x.Waits v) {releasing : Bool}
    (hphase : x.phase = .live s releasing) :
    Context.Waits { x with phase := .live { s with runtimeAvailable := false } releasing } v := by
  obtain ⟨s', releasing', hphase', hheld⟩ := hw
  cases hphase.symm.trans hphase'
  have hstep : step x.env s .runtimeStops = some { s with runtimeAvailable := false } := rfl
  exact ⟨_, releasing, rfl, held_step (h.live s releasing hphase) hheld (fun _ hc => by cases hc) rfl hstep⟩

theorem become_minded (h : Minded p) {r r' : Runtime} (hs : p.become r r' = some p') :
    ∃ w', p' = { p with world := w', runtime := some r' } ∧ (∀ j, (w'.context j).Attended) ∧
      ∀ j v, .copy j (.reactor v) ∈ p.holders → (w'.context j).Waits v := by
  unfold Registry.become at hs
  split at hs
  · obtain ⟨w', hw, rfl⟩ := Option.map_eq_some_iff.1 hs
    cases hw
    refine ⟨_, rfl, fun j => ?_, fun j v hm => ?_⟩
    · dsimp only
      split
      · exact (h.contexts j).stopped ‹_›
      · exact h.contexts j
    · dsimp only
      split
      · exact (h.copies j v hm).stopped (h.contexts j) ‹_›
      · exact h.copies j v hm
  · cases hs
    exact ⟨p.world, rfl, h.contexts, h.copies⟩

theorem thread_minded {c : ThreadChoice} (h : Minded p) (hs : p.threadStep strerror c = some p') : Minded p' := by
  unfold Registry.threadStep at hs
  split at hs
  · cases hs
  · rename_i r hruntime
    split at hs
    · cases hs
    · obtain ⟨⟨r', notify⟩, -, hs⟩ := Option.bind_eq_some_iff.1 hs
      obtain ⟨q, hq, rfl⟩ := Option.map_eq_some_iff.1 hs
      obtain ⟨w', rfl, hcontexts, hcopies⟩ := become_minded h hq
      have hnext : Minded { p with
          world := w'
          runtime := some r'
          runtimeStartedOnce := p.runtimeStartedOnce || r.thread == .entering
          starts := if r.thread = .entering then p.starts + 1 else p.starts } :=
        { h with contexts := hcontexts, copies := hcopies }
      cases notify with
      | true =>
        simp only [if_true, Registry.notifyAll]
        split
        · rename_i i env requested hmutex
          refine { hnext with asked := ?_ }
          intro m hm
          cases hm
          have hn := h.asked _ hmutex
          exact hn
        · exact hnext
      | false => exact hnext

theorem contexts_minded {a : WorldAction} (h : Minded p) (hallows : p.allows a = true)
    (hpatient : p.patient (.world a) = true) (hs : p.contextsStep a = some p') : Minded p' := by
  have hstops : a ≠ .runtimeStops := by
    rintro rfl
    cases hallows
  obtain ⟨w', hw, rfl⟩ := Option.map_eq_some_iff.1 hs
  obtain ⟨y, claimed, hb, hw'⟩ := worldStep_became hw hstops
  have hcontext : ∀ j, w'.context j = if j = a.index then y else p.world.context j := by
    intro j
    rw [hw']
    exact setContext_context _ _ _ _
  have hdelivers : ∀ i b s releasing, a = .context i b → (p.world.context a.index).phase = .live s releasing →
      delivers s b = true ∧
      ∀ v, .copy i (.reactor v) ∈ p.holders → s.spares v b = true := by
    rintro i b s releasing rfl hphase
    have hphase : (p.world.context i).phase = .live s releasing := hphase
    simp only [Registry.patient, hphase, Bool.and_eq_true, List.all_eq_true] at hpatient
    refine ⟨hpatient.1, fun v hv => ?_⟩
    simpa using hpatient.2 _ hv
  have hcontexts : ∀ j, (w'.context j).Attended := by
    intro j
    rw [hcontext]
    split
    · refine became_attended (h.contexts _) hb ?_ fun i b s releasing ha hphase => (hdelivers i b s releasing ha hphase).1
      rintro i env rfl
      cases hallows
    · exact h.contexts j
  have hwaits : ∀ j v, .copy j (.reactor v) ∈ p.holders → (w'.context j).Waits v := by
    intro j v hm
    rw [hcontext]
    split
    · rename_i hj
      subst hj
      refine became_waits (h.contexts _) (h.copies _ v hm) hb ?_
      rintro i b s releasing rfl hphase
      refine ⟨(hdelivers i b s releasing rfl hphase).2 v hm, ?_⟩
      rintro c rfl
      -- with a copy that is not in use the reactor is busy
      have hphase : (p.world.context i).phase = .live s releasing := hphase
      by_contra hno
      have huses : p.uses i (.reactor v) = false := by simp [Registry.uses, hphase, inUse, hno]
      have hm : .copy i (.reactor v) ∈ p.holders := hm
      simp [Registry.allows, actorOf, Registry.busy, huses, hm] at hallows
    · exact h.copies j v hm
  have hworld : Minded { p with world := w' } := ⟨h.asked, hcontexts, hwaits, h.elsewhere⟩
  dsimp only
  split
  · split
    · exact hworld.giveUp (by simp)
    · exact hworld
  · split
    · exact hworld.giveUp (by simp)
    · exact hworld
  · split
    · rename_i i b x s releasing hphase
      refine ⟨h.asked, hcontexts, fun j v hm => ?_, h.elsewhere⟩
      rcases references_copy hm with hm | ⟨rfl, rfl, rc, error, stack, hst, hstart⟩
      · exact hwaits j v hm
      · have hy : w'.context j = y := (hcontext j).trans (if_pos rfl)
        show (w'.context j).Waits v
        rw [hy]
        cases hb with
        | stepped i b s' releasing' z hx hl =>
          have hx : (p.world.context j).phase = .live s' releasing' := hx
          cases hphase.symm.trans hx
          exact ⟨z.1, z.2, rfl, held_taken ((h.contexts j).live s releasing hphase) hst hstart (liveStep_step hl)⟩
    · exact hworld
  · exact hworld

theorem destructor_minded {rc : Int} (h : Minded p) (hs : p.destructorStep rc = some p') :
    Minded p' := by
  have hthread : ∀ i t pc (pc' : DestructorPc), p.destructor = some (i, t, pc) →
      ∀ j v pc'', some (i, t, pc') ≠ some (j, Actor.reactor v, pc'') := by
    intro i t pc pc' hd j v pc'' heq
    cases heq
    exact h.elsewhere i v pc hd
  unfold Registry.destructorStep at hs
  split at hs
  · rename_i i t r hd hruntime
    split at hs
    · cases hs
    · obtain ⟨q, hq, rfl⟩ := Option.map_eq_some_iff.1 hs
      obtain ⟨w', rfl, hcontexts, hcopies⟩ := become_minded h hq
      exact { h with contexts := hcontexts, copies := hcopies, elsewhere := hthread i t _ _ hd }
  · rename_i i t r hd hruntime
    cases hs
    exact { h with elsewhere := hthread i t _ _ hd }
  · split at hs
    · cases hs
      exact { h with elsewhere := by simp }
    · cases hs
  · cases hs

theorem minded_step {a : RegistryAction} (hsh : Shared p) (h : Minded p) (hpatient : p.patient a = true)
    (hs : registryStep strerror p a = some p') : Minded p' := by
  cases a with
  | acquire i env environment isFile config =>
    simp only [registryStep] at hs
    split at hs
    · split at hs
      · cases hs
      · rename_i hbusy
        refine acquire_minded h (fun c hc => ?_) hs
        have hne := makeRuntimeConfig_threads hc
        have hnonneg : ¬ config.ioThreadCount < 0 := by simp_all
        show 0 < config.ioThreadCount.toNat
        omega
    · cases hs
  | acquirer => exact acquirer_minded h hs
  | thread c => exact thread_minded h hs
  | world a =>
    simp only [registryStep] at hs
    split at hs
    · exact contexts_minded h ‹_› hpatient hs
    · cases hs
  | leave i t =>
    simp only [registryStep] at hs
    split at hs
    · rename_i hheld
      cases hs
      refine h.giveUp ?_
      rintro v rfl
      have hm : .copy i (.reactor v) ∈ p.holders := by
        simp only [Bool.and_eq_true, List.contains_iff_mem] at hheld
        exact hheld.1
      -- the context still has its own
      have hmember : .member i ∈ p.holders := (hsh.members i).2 (h.copies i v hm).shares
      exact List.ne_nil_of_mem ((List.mem_erase_of_ne (by simp)).2 hmember)
    · cases hs
  | destructor rc => exact destructor_minded h hs

theorem init_minded : Minded {} where
  asked := by simp
  contexts i := ⟨fun hbuilt => False.elim hbuilt, fun s releasing hs => by cases hs⟩
  copies := by simp
  elsewhere := by simp

/-- **The runtime is not destroyed on its own reactors**: in every run in which the message that begins a teardown is
taken, unless nothing is open and `close()` has not been called, a worker that cannot be told to shut down has nothing
to do, `close()` finds nothing open only when the application thread has nothing to do, and in the last two cases that
reactor does not have its copy of the runtime from `request_shutdown`, a reactor that has a reference is one of a
context that still has its own, and no reactor is ever in `~SpdkRuntime()`. -/
theorem destroyed_elsewhere {as : List RegistryAction}
    (hg : Guarded (registryStep strerror) (fun p a => p.patient a = true) {} as)
    (h : runFrom (registryStep strerror) {} as = some p) :
    (∀ i v, .copy i (.reactor v) ∈ p.holders → (p.world.context i).Shares) ∧
    ∀ i v pc, p.destructor ≠ some (i, .reactor v, pc) := by
  obtain ⟨-, hminded⟩ : Shared p ∧ Minded p :=
    run_invariant (I := fun q => Shared q ∧ Minded q)
      (fun _ _ _ hi ha hs => ⟨shared_step hi.1 hs, minded_step hi.1 hi.2 ha hs⟩) ⟨init_shared, init_minded⟩ hg h
  exact ⟨fun i v hm => (hminded.copies i v hm).shares, hminded.elsewhere⟩

/-- The context is closed, and the destructor is on the thread that has closed it. -/
theorem destroyed_elsewhere_closed : ∃ p,
    runFrom (registryStep fun _ => "") {} (startingRun ++ closingRun 0) = some p ∧ p.destructor.isSome = true ∧
    ∀ i v pc, p.destructor ≠ some (i, .reactor v, pc) := by
  have hrun : (runFrom (registryStep fun _ => "") {} (startingRun ++ closingRun 0)).any
      (fun p => p.destructor.isSome) = true := by decide +kernel
  obtain ⟨p, hp, hsome⟩ := (Option.any_eq_true _ _).1 hrun
  have hguard : Guarded (registryStep fun _ => "") (fun p a => p.patient a = true) {} (startingRun ++ closingRun 0) := by
    decide +kernel
  exact ⟨p, hp, hsome, (destroyed_elsewhere hguard hp).2⟩

/-- The bdev cannot be opened, and the constructor closes the context while the application thread is in
`request_shutdown`. -/
def overtakingRun : List RegistryAction :=
  [plainAcquire 0 "bdev", .acquirer, .thread .next, .thread .next, .thread (.appStart true), .acquirer,
    .world (.claim 0), .world (.send 0 0 Nat.toUInt8)] ++
  contextRun 0 [.reactor 0 .message, .reactor 0 (.code enodev), .reactor 0 .next, .reactor 0 .next, .reactor 0 .next,
    .reactor 0 (.code 0), .owner .next, .owner .next, .owner .next, .owner .next] ++
  [.world (.release 0), .leave 0 .owner, .leave 0 (.reactor 0)]

/-- A close that overtakes the application thread leaves the last reference to it. -/
theorem destroyed_on_reactor : ∃ p, runFrom (registryStep fun _ => "") {} overtakingRun = some p ∧
    p.destructor = some (0, .reactor 0, .stopping) := by
  have hrun : (runFrom (registryStep fun _ => "") {} overtakingRun).any
      (fun p => decide (p.destructor = some (0, .reactor 0, .stopping))) = true := by decide +kernel
  obtain ⟨p, hp, hd⟩ := (Option.any_eq_true _ _).1 hrun
  exact ⟨p, hp, of_decide_eq_true hd⟩

end SpdkRuntime
end SpdkConnector
