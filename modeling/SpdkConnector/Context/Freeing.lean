import SpdkConnector.Context.Finale

/-!
# The I/O of a worker that is gone

A worker that gives up its channel with no command in flight and no message of a batch in its ring or on its way
there has no I/O left, and gets none: SPDK fires no waiting request without the channel, no dispatch sets out once
a shutdown is requested, and the calls it has still to make are of the life cycle (`Freeing`).
-/

namespace SpdkConnector
namespace SpdkBdevContext

open Interleaving

variable {e : Env} {s s' : Sys} {ζ : Core} {κ κ' : Cycle} {w v i b : Nat} {f g : LifeFrame} {rest : List Frame} {x y : Reactor}
  {d : IoWorkerDispatch} {todo : List IoWorkerDispatch}

/-- No I/O callback is running on a reactor, or will be. -/
structure IoFree (x : Reactor) : Prop where
  stack : ∀ f ∈ x.stack, f.IsLife
  queue : ∀ m ∈ x.queue, m.frame.IsLife
  inFlight : x.inFlight = []
  waiting : x.channelHeld = true → x.ioWait = []

/-- No dispatch is on its way to worker `v`. -/
def Unsent (s : Sys) (v : Nat) : Prop := ∀ b d todo, (s.batch b).caller = .sending d todo → d.worker ≠ v

/-- Under a life cycle call there are only others. -/
def Reactor.Layered (x : Reactor) : Prop := x.stack.Pairwise fun f g => f.IsLife → g.IsLife

/-! ## The callers -/

/-- A caller gets past the check of `send_message` only while no shutdown is requested. -/
theorem callerStep_sends {c : Choice} (h : callerStep e s b c = some s') (hsend : (s'.batch b).caller = .sending d todo) :
    s.ctx.closed = false ∧ s.ctx.shutdownRequested = false := by
  have hgo : ∀ (s0 : Sys) (pc : CallerPc), ((s0.setBatch b { s0.batch b with caller := pc }).batch b).caller = pc :=
    fun s0 pc => by simp [Sys.setBatch]
  unfold callerStep at h
  dsimp only at h
  split at h
  · cases h
    cases (hgo _ _).symm.trans hsend
  · split at h
    · cases h
      cases (hgo _ _).symm.trans hsend
    · rename_i hopen
      simp only [Bool.or_eq_true, not_or, Bool.not_eq_true] at hopen
      exact hopen.1
  · split at h
    · cases h
      cases (hgo _ _).symm.trans hsend
    · split at h
      · cases h
        cases (hgo _ _).symm.trans hsend
      · cases h
        cases (hgo _ _).symm.trans hsend
  · cases h
    cases (hgo _ _).symm.trans hsend
  · cases h
    have hpc := (hgo _ _).symm.trans hsend
    split at hpc <;> cases hpc
  · cases h
    cases (hgo _ _).symm.trans hsend
  · cases h
    have hpc := (hgo _ _).symm.trans hsend
    split at hpc <;> cases hpc
  · cases h
    cases (hgo _ _).symm.trans hsend
  · cases h
    cases (hgo _ _).symm.trans hsend
  · cases h

/-- Once a shutdown is requested, or `close()` is under way, no dispatch sets out. -/
theorem Unsent.step (h : Unsent s v) (ht : Tracks s ζ) {a : Action} (hs : step e s a = some s')
    (hshut : s.ctx.closed = true ∨ s.ctx.shutdownRequested = true) : Unsent s' v := by
  intro b d todo hpc
  have hcalled := step_called ht hs b
  generalize hnew : (s'.batch b).caller = pc at hcalled hpc
  subst hpc
  generalize hsent : CallerPc.sending d todo = pc at hcalled
  cases hcalled with
  | same => exact h b d todo hsent.symm
  | woken => cases hsent
  | submitted => cases hsent
  | went c =>
    subst hsent
    obtain ⟨hclosed, hrequested⟩ := callerStep_sends hs hnew
    rcases hshut with hshut | hshut
    · exact nomatch hclosed.symm.trans hshut
    · exact nomatch hrequested.symm.trans hshut

theorem unsent_placed (ht : Tracks s ζ) (hc : Consistent e ζ) (h : Placed s) (hv : s.ctx.ioWorkers ≤ v) :
    Unsent s v := fun _ _ _ hpc hd => absurd (hd ▸ sending_placed ht hc h hpc) (Nat.not_lt.2 hv)

/-! ## The reactors -/

theorem acted_layered {a : Action} (h : (s.reactor v).Layered) (ha : Acted s v a y) : y.Layered := by
  have hsingle : ∀ f : Frame, [f].Pairwise fun f g => f.IsLife → g.IsLife := List.pairwise_singleton _
  have hlives : ∀ fs : List LifeFrame, (fs.map Frame.life).Pairwise fun f g => f.IsLife → g.IsLife := by
    intro fs
    refine List.pairwise_of_forall_mem_list fun f _ g hg _ => ?_
    obtain ⟨g, -, rfl⟩ := List.mem_map.1 hg
    trivial
  cases ha with
  | same | dispatch | posted | moved => exact h
  | message | completion | ioWait | event => exact hsingle _
  | reached u c f rest y hu hst hr => cases hr <;> exact h
  | io c f rest y fs hst hdone =>
    rw [Reactor.Layered, hst, List.pairwise_cons] at h
    refine List.pairwise_append.2 ⟨?_, h.2, fun a ha b _ hlife => ?_⟩
    · refine List.pairwise_of_forall_mem_list fun f hf g _ hlife => ?_
      obtain ⟨f, -, rfl⟩ := List.mem_map.1 hf
      exact hlife.elim
    · obtain ⟨a, -, rfl⟩ := List.mem_map.1 ha
      exact hlife.elim
  | life c f rest y fs hst ht =>
    rw [Reactor.Layered, hst, List.pairwise_cons] at h
    refine List.pairwise_append.2 ⟨?_, h.2, fun a _ b hb _ => h.1 b hb trivial⟩
    cases ht with
    | quiet f fs | posted f fs | released fs => exact hlives fs
    | setUp pool dma bytes ioChannel channelHeld error => exact hsingle _
    | own | flushedAll => exact hsingle _
    | cut => exact hlives [_, _]
    | flushed r tail error => simp [Frame.IsLife]

/-- No I/O callback starts on a reactor that has none left, unless its worker is set up or flushed. -/
theorem acted_ioFree {a : Action} (h : IoFree (s.reactor v)) (hunsent : Unsent s v)
    (hset : .initializeIoWorker ∉ s.cycle.agenda v) (hflush : .shutdownIoWorker ∉ s.cycle.agenda v)
    (ha : Acted s v a y) : IoFree y := by
  obtain ⟨hstack, hqueue, hinFlight, hwaiting⟩ := h
  have hposted : ∀ (m : Msg) (g : LifeFrame), m.frame = .life g → ∀ m' ∈ (s.reactor v).queue ++ [m], m'.frame.IsLife := by
    intro m g hm m' hm'
    rcases List.mem_append.1 hm' with hm' | hm'
    · exact hqueue m' hm'
    · obtain rfl := List.mem_singleton.1 hm'
      rw [hm]
      trivial
  cases ha with
  | same => exact ⟨hstack, hqueue, hinFlight, hwaiting⟩
  | dispatch b c d todo hpc hd => exact absurd hd (hunsent b d todo hpc)
  | posted a m g hm => exact ⟨hstack, hposted m g hm, hinFlight, hwaiting⟩
  | message m tail _ hq =>
    refine ⟨fun f hf => ?_, fun m' hm' => hqueue m' (hq ▸ List.mem_cons_of_mem _ hm'), hinFlight, hwaiting⟩
    obtain rfl := List.mem_singleton.1 hf
    exact hqueue m (hq ▸ List.mem_cons_self)
  | completion k success c _ hk =>
    rw [hinFlight] at hk
    cases hk
  | ioWait k r _ hk hheld =>
    rw [hwaiting hheld] at hk
    cases hk
  | event c rc error =>
    refine ⟨fun f hf => ?_, hqueue, hinFlight, hwaiting⟩
    obtain rfl := List.mem_singleton.1 hf
    trivial
  | io c f rest y fs hst =>
    have hlife : (Frame.io f).IsLife := hstack _ (hst ▸ List.mem_cons_self)
    exact hlife.elim
  | life c f rest y fs hst ht =>
    have hmem : .life f ∈ (s.reactor v).stack := hst ▸ List.mem_cons_self
    have hrest : ∀ g ∈ rest, g.IsLife := fun g hg => hstack g (hst ▸ List.mem_cons_of_mem _ hg)
    have hlives : ∀ fs : List LifeFrame, ∀ g ∈ fs.map Frame.life ++ rest, g.IsLife := by
      intro fs g hg
      rcases List.mem_append.1 hg with hg | hg
      · obtain ⟨g, -, rfl⟩ := List.mem_map.1 hg
        trivial
      · exact hrest g hg
    cases ht with
    | quiet f fs => exact ⟨hlives fs, hqueue, hinFlight, hwaiting⟩
    | posted f fs hfs m g hm => exact ⟨hlives fs, hposted m g hm, hinFlight, hwaiting⟩
    | setUp => exact absurd (stack_agenda hmem) hset
    | own => exact ⟨hlives [_], hqueue, hinFlight, hwaiting⟩
    | cut => exact ⟨hlives [_, _], hqueue, hinFlight, hwaiting⟩
    | flushed | flushedAll => exact absurd (stack_agenda hmem) hflush
    | released fs =>
      refine ⟨hlives fs, hqueue, hinFlight, fun hheld => hwaiting ?_⟩
      dsimp only at hheld
      split at hheld
      · cases hheld
      · exact hheld
  | reached u c f rest y hu hst hr =>
    cases hr with
    | same => exact ⟨hstack, hqueue, hinFlight, hwaiting⟩
    | posted f m g hm => exact ⟨hstack, hposted m g hm, hinFlight, hwaiting⟩
    | cut => exact ⟨hstack, hqueue, hinFlight, hwaiting⟩
  | moved a k c c' dma hk =>
    rw [hinFlight] at hk
    cases hk

/-! ## The channels -/

theorem initializeIoWorker_channel (s : Sys) (w : Nat) (onReactor channel : Bool) (obtained : Nat) :
    ((initializeIoWorker e s w onReactor channel obtained).1.reactor w).ioChannel = true ∨
    ((initializeIoWorker e s w onReactor channel obtained).1.reactor w).channelHeld = (s.reactor w).channelHeld ∧
      ((initializeIoWorker e s w onReactor channel obtained).1.reactor w).ioChannel = (s.reactor w).ioChannel := by
  unfold initializeIoWorker
  dsimp only
  split
  · exact .inr ⟨rfl, rfl⟩
  split
  · exact .inr ⟨rfl, rfl⟩
  split <;> exact .inl (by simp [Sys.setReactor])

/-- A worker's channel changes when it is set up, when it is released, and when it cannot be told. -/
inductive Channel (s : Sys) (v : Nat) : Action → Reactor → Prop
  | same (a : Action) (y : Reactor) (hheld : y.channelHeld = (s.reactor v).channelHeld)
      (hio : y.ioChannel = (s.reactor v).ioChannel) : Channel s v a y
  | setUp (c : Choice) (stack : List Frame) (y : Reactor)
      (hst : (s.reactor v).stack = .life .initializeIoWorker :: stack) : Channel s v (.reactor v c) y
  | released (c : Choice) (stack : List Frame) (y : Reactor)
      (hst : (s.reactor v).stack = .life .releaseIoWorker :: stack)
      (hheld : y.channelHeld = if (s.reactor v).ioChannel then false else (s.reactor v).channelHeld) :
      Channel s v (.reactor v c) y
  | cut (u : Nat) (rc : Int) (stack : List Frame) (y : Reactor)
      (hst : (s.reactor u).stack = .life (.postShutdown v) :: stack) (hrc : rc ≠ 0)
      (hheld : y.channelHeld = (s.reactor v).channelHeld) : Channel s v (.reactor u (.code rc)) y

theorem acted_channel {a : Action} (ha : Acted s v a y) : Channel s v a y := by
  cases ha with
  | io c f rest y fs hst hdone =>
    cases hdone with
    | parked r dma y fs hp => cases hp <;> exact .same _ _ rfl rfl
    | _ => exact .same _ _ rfl rfl
  | life c f rest y fs hst ht =>
    cases ht with
    | setUp => exact .setUp c rest _ hst
    | released => exact .released c rest _ hst rfl
    | cut rc hrc => exact .cut v rc rest _ hst hrc rfl
    | _ => exact .same _ _ rfl rfl
  | reached u c f rest y hu hst hr =>
    cases hr with
    | cut rc hrc => exact .cut u rc rest _ hst hrc rfl
    | _ => exact .same _ _ rfl rfl
  | _ => exact .same _ _ rfl rfl

theorem step_setUp {c : Choice} (hst : (s.reactor w).stack = .life .initializeIoWorker :: rest)
    (hs : step e s (.reactor w c) = some s') : (s'.reactor w).ioChannel = true ∨
    (s'.reactor w).channelHeld = (s.reactor w).channelHeld ∧ (s'.reactor w).ioChannel = (s.reactor w).ioChannel := by
  obtain ⟨s1, fs, hrun, rfl⟩ := step_life hst hs
  simp only [Sys.setReactor, Function.update_self]
  cases c with
  | setUp onReactor channel obtained =>
    have hchannel := initializeIoWorker_channel (e := e) (s.setReactor w { s.reactor w with stack := rest }) w onReactor
      channel obtained
    simp only [runLife, Option.some.injEq, Prod.mk.injEq] at hrun
    rw [hrun.1] at hchannel
    simpa [Sys.setReactor] using hchannel
  | _ => cases hrun

/-- A worker that is released has only life cycle calls left on its stack. -/
theorem step_released {c : Choice} (hst : (s.reactor w).stack = .life .releaseIoWorker :: rest)
    (hs : step e s (.reactor w c) = some s') : ∃ fs : List LifeFrame,
    (s'.reactor w).stack = fs.map .life ++ rest ∧ (s'.reactor w).queue = (s.reactor w).queue ∧
    (s'.reactor w).inFlight = (s.reactor w).inFlight ∧
    (s'.reactor w).channelHeld = if (s.reactor w).ioChannel then false else (s.reactor w).channelHeld := by
  obtain ⟨s1, fs, hrun, rfl⟩ := step_life hst hs
  cases c with
  | next =>
    obtain ⟨hs1, rfl⟩ := Prod.mk.inj (Option.some.inj hrun)
    have hreactor : (s1.reactor w).queue = (s.reactor w).queue ∧ (s1.reactor w).inFlight = (s.reactor w).inFlight ∧
        (s1.reactor w).channelHeld = if (s.reactor w).ioChannel then false else (s.reactor w).channelHeld := by
      rw [← hs1, releaseIoWorker_reactor]
      simp [Sys.setReactor]
    refine ⟨if w = 0 then [.onIoWorkerShutdown] else [.postFinish], ?_⟩
    simp only [Sys.setReactor, Function.update_self]
    refine ⟨?_, hreactor⟩
    split <;> rfl
  | _ => cases hrun

/-! ## The workers -/

/-- What a close in order keeps: the calls go as they should, and a worker that has given up its channel has no
I/O left, like the reactors that have no worker. -/
structure Freeing (e : Env) (s : Sys) : Prop where
  outgoing : Outgoing e s.cycle
  ordered : Ordered s.cycle
  manned : Manned e s
  layered : ∀ v, (s.reactor v).Layered
  spare : ∀ v, s.ctx.ioWorkers ≤ v → IoFree (s.reactor v) ∧ (s.reactor v).channelHeld = false
  linked : ∀ i < s.ctx.ioWorkers, (s.reactor i).channelHeld = true → (s.reactor i).ioChannel = true ∨
    s.ctx.shutdownStarted = true ∧ s.cycle.weigh e (LifeFrame.tells i) = 0
  freed : s.ctx.shutdownStarted = true → ∀ i < s.ctx.ioWorkers, s.cycle.weigh e (LifeFrame.tells i) = 0 →
    IoFree (s.reactor i) ∧ Unsent s i

theorem drained_iff : s.drained i = true → (s.reactor i).inFlight = [] ∧ (∀ m ∈ (s.reactor i).queue, m.frame.IsLife) ∧
    ∀ b < s.batches, ∀ d todo, (s.batch b).caller = .sending d todo → d.worker ≠ i := by
  intro h
  simp only [Sys.drained, Bool.and_eq_true, List.isEmpty_iff, List.all_eq_true, List.mem_range] at h
  obtain ⟨⟨h1, h2⟩, h3⟩ := h
  refine ⟨h1, fun m hm => ?_, fun b hb d todo hpc => ?_⟩
  · have hlife := h2 m hm
    cases hf : m.frame with
    | life => trivial
    | io => simp [hf, Frame.life?] at hlife
  · have hsent := h3 b hb
    rw [hpc] at hsent
    simpa using hsent

/-- No dispatch is on its way to a worker that is drained. -/
theorem unsent_drained (ht : Tracks s ζ) (h : s.drained i = true) : Unsent s i := by
  intro b d todo hpc
  refine (drained_iff h).2.2 b (Nat.lt_of_not_le fun hb => ?_) d todo hpc
  exact nomatch (ht.tidy.fresh b hb).symm.trans hpc

/-- A reactor that has no worker makes no call of one. -/
theorem Outgoing.spare (h : Outgoing e κ) (hv : κ.ctx.ioWorkers ≤ v) :
    ∀ g ∈ κ.agenda v, ¬ g.Tearing ∧ g ≠ .initializeIoWorker := by
  intro g hg
  cases h with
  | opening h =>
    have hearly := (h.early hg).2
    cases g <;> first | exact hearly.elim | exact ⟨id, nofun⟩
  | opened ho hcourse htell =>
    refine ⟨fun ht => absurd (htell.staffed v g hg ht) (Nat.not_lt.2 hv), ?_⟩
    rintro rfl
    exact absurd (hcourse.hosted v _ hg trivial) (Nat.not_lt.2 hv)

/-- Once the teardown has started no worker is set up that has been told to stop. -/
theorem Outgoing.settled (h : Outgoing e κ) (hs : κ.ctx.shutdownStarted = true) (hi : i < κ.ctx.ioWorkers)
    (hzero : κ.weigh e (LifeFrame.tells i) = 0) :
    .initializeIoWorker ∉ κ.agenda i ∧ .shutdownIoWorker ∉ κ.agenda i := by
  cases h with
  | opening h => exact nomatch h.started.symm.trans hs
  | opened ho hcourse htell hfinale =>
    refine ⟨fun hg => ?_, fun hg => ?_⟩
    · rcases Nat.eq_zero_or_pos i with rfl | hpos
      · exact hfinale.late hs _ hg
      · exact htell.gone hs i (Nat.ne_of_gt hpos) hi hzero _ hg
    · have hle := weight_le_weigh (e := e) (LifeFrame.tells i) (ho.confined i _ hg).1 hg
      simp [LifeFrame.tells] at hle
      omega

theorem freeing_spare (h : Freeing e s) (ht : Tracks s ζ) (hc : Consistent e ζ) {a : Action} (hs : step e s a = some s')
    (hv : s.ctx.ioWorkers ≤ v) : IoFree (s'.reactor v) ∧ (s'.reactor v).channelHeld = false := by
  obtain ⟨hfree, hheld⟩ := h.spare v hv
  have hacted := step_acted ht hc hs v
  have hquiet := h.outgoing.spare (v := v) hv
  refine ⟨?_, ?_⟩
  · exact acted_ioFree hfree (unsent_placed ht hc h.manned.placed hv) (fun hg => (hquiet _ hg).2 rfl)
      (fun hg => (hquiet _ hg).1 trivial) hacted
  · have hchannel := acted_channel hacted
    generalize s'.reactor v = y at hchannel
    cases hchannel with
    | same a y hsame => exact hsame.trans hheld
    | cut u rc stack y hst hrc hsame => exact hsame.trans hheld
    | setUp c stack y hst => exact absurd rfl (hquiet _ (stack_agenda (hst ▸ List.mem_cons_self))).2
    | released c stack y hst =>
      have hmem : .releaseIoWorker ∈ s.cycle.agenda v := stack_agenda (hst ▸ List.mem_cons_self)
      exact ((hquiet _ hmem).1 trivial).elim

/-- The channels of the workers, after a step. -/
theorem freeing_linked (h : Freeing e s) (ho : Opened e s.cycle) (htell : Telling e s.cycle) (ht : Tracks s ζ)
    (hc : Consistent e ζ) {a : Action} (hs : step e s a = some s')
    (hi : i < s.ctx.ioWorkers)
    (hstays : s.ctx.shutdownStarted = true → s.cycle.weigh e (LifeFrame.tells i) = 0 →
      s'.ctx.shutdownStarted = true ∧ s'.cycle.weigh e (LifeFrame.tells i) = 0)
    (hheld : (s'.reactor i).channelHeld = true) : (s'.reactor i).ioChannel = true ∨
      s'.ctx.shutdownStarted = true ∧ s'.cycle.weigh e (LifeFrame.tells i) = 0 := by
  have hchannel := acted_channel (step_acted ht hc hs i)
  have hsame : (s'.reactor i).channelHeld = (s.reactor i).channelHeld →
      (s'.reactor i).ioChannel = (s.reactor i).ioChannel → (s'.reactor i).ioChannel = true ∨
        s'.ctx.shutdownStarted = true ∧ s'.cycle.weigh e (LifeFrame.tells i) = 0 := by
    intro h1 h2
    rcases h.linked i hi (h1.symm.trans hheld) with hio | ⟨h3, h4⟩
    · exact .inl (h2.trans hio)
    · exact .inr (hstays h3 h4)
  generalize hy : s'.reactor i = y at hchannel hheld hsame ⊢
  cases hchannel with
  | same a y h1 h2 => exact hsame h1 h2
  | setUp c stack y hst =>
    rcases step_setUp hst hs with hio | ⟨h1, h2⟩
    · exact .inl (hy ▸ hio)
    · exact hsame (hy ▸ h1) (hy ▸ h2)
  | released c stack y hst h1 =>
    -- a worker released for the first time gives its channel back
    have hmem : .releaseIoWorker ∈ s.cycle.agenda i := stack_agenda (hst ▸ List.mem_cons_self)
    have hle := weight_le_weigh (e := e) (LifeFrame.tells i) (ho.confined i _ hmem).1 hmem
    rw [h1] at hheld
    split at hheld
    · cases hheld
    · rename_i hio
      rcases h.linked i hi hheld with hio' | ⟨-, hzero⟩
      · exact absurd hio' hio
      · simp [LifeFrame.tells] at hle
        omega
  | cut u rc stack y hst hrc =>
    right
    obtain ⟨rest, x, hag, hl, hcycle⟩ : ∃ rest x, s.cycle.agenda u = .postShutdown i :: rest ∧
        Lived e s.runtimeAvailable s.ctx u (.postShutdown i) (.code rc) x ∧ s'.cycle = s.cycle.run u rest x := by
      simp only [step] at hs
      split at hs
      · exact lifeStep_cycle hst hs
      · cases hs
    have hmem : .postShutdown i ∈ s.cycle.agenda u := hag ▸ List.mem_cons_self
    obtain ⟨hu, hf⟩ := ho.confined u _ hmem
    have hweigh := weigh_run hag hu (fun u g hx => ((lived_confined hl hf ho.workers).2 u g hx).1) (LifeFrame.tells i)
    have hcut := cut_tells hl hrc (htell.index u i hmem)
    have htold := htell.told i hi
    have hone : LifeFrame.tells i u (.postShutdown i) = 1 := by simp [LifeFrame.tells]
    have hbefore : s.ctx.shutdownStarted = true := by
      by_contra hno
      exact h.ordered.calm (Bool.eq_false_iff.2 hno) u _ hmem trivial
    refine ⟨?_, ?_⟩
    · have hstarted : s'.ctx.shutdownStarted = x.ctx.shutdownStarted :=
        congrArg (fun κ => κ.ctx.shutdownStarted) hcycle
      exact hstarted.trans ((lived_monotone hl).2.2.1 hbefore)
    · rw [hcycle]
      omega

/-- A worker that has been told to stop has no I/O left, after a step. -/
theorem freeing_freed (h : Freeing e s) (ho : Opened e s.cycle) (hcourse : Course e s.cycle)
    (htell : Telling e s.cycle) (ht : Tracks s ζ) (hc : Consistent e ζ) {a : Action} (hg : orderly e s a = true)
    (hs : step e s a = some s') (hi : i < s.ctx.ioWorkers) (hst : s'.ctx.shutdownStarted = true)
    (hzero : s'.cycle.weigh e (LifeFrame.tells i) = 0) : IoFree (s'.reactor i) ∧ Unsent s' i := by
  have hacted := step_acted ht hc hs i
  have hasked := fun hbefore : s.ctx.shutdownStarted = true => (Path.opened ho hcourse).started hbefore
  have hgone : s.ctx.shutdownStarted = true → s.cycle.weigh e (LifeFrame.tells i) = 0 →
      IoFree (s'.reactor i) ∧ Unsent s' i := by
    intro hbefore hold
    obtain ⟨hfree, hunsent⟩ := h.freed hbefore i hi hold
    obtain ⟨hset, hflush⟩ := h.outgoing.settled hbefore hi hold
    exact ⟨acted_ioFree hfree hunsent hset hflush hacted, hunsent.step ht hs (.inr (hasked hbefore))⟩
  rcases step_milestones hs with ⟨w, c, f, stack, rest, x, rfl, hstack, hag, hl, hcycle, -⟩ | ⟨-, ha⟩
  · have hx : x.ctx.shutdownStarted = true := (congrArg (fun κ => κ.ctx.shutdownStarted) hcycle).symm.trans hst
    rw [hcycle] at hzero
    rw [orderly, hstack, List.head?_cons] at hg
    obtain ⟨hbefore, hold | ⟨rfl, rfl⟩ | ⟨rfl, rfl, rc, hrc, rfl⟩⟩ := htell.untold_run ho h.ordered hcourse hag hl hi hx hzero
    · exact hgone hbefore hold
    · -- its reactor gives up the channel
      have hg : s.drained w = true := hg
      obtain ⟨fs, h1, h2, h3, h4⟩ := step_released hstack hs
      obtain ⟨hinFlight, hqueue, -⟩ := drained_iff hg
      have hlayered := h.layered w
      rw [Reactor.Layered, hstack, List.pairwise_cons] at hlayered
      refine ⟨⟨fun g hg => ?_, h2 ▸ hqueue, h3.trans hinFlight, fun hheld => ?_⟩,
        (unsent_drained ht hg).step ht hs (.inr (hasked hbefore))⟩
      · rw [h1] at hg
        rcases List.mem_append.1 hg with hg | hg
        · obtain ⟨g, -, rfl⟩ := List.mem_map.1 hg
          trivial
        · exact hlayered.1 g hg trivial
      · rw [h4] at hheld
        split at hheld
        · cases hheld
        · rename_i hio
          have hle := weight_le_weigh (e := e) (LifeFrame.tells w) (ho.confined w _ (hag ▸ List.mem_cons_self)).1
            (hag ▸ List.mem_cons_self)
          rcases h.linked w hi hheld with hio' | ⟨-, hnone⟩
          · exact absurd hio' hio
          · simp [LifeFrame.tells] at hle
            omega
    · -- it cannot be told, and its reactor has nothing to do
      have hidle : s.drained i = true ∧ (s.reactor i).resting = true := by simpa [hrc] using hg
      obtain ⟨hdrained, hresting⟩ := hidle
      simp only [Reactor.resting, Bool.and_eq_true, List.isEmpty_iff] at hresting
      obtain ⟨⟨h1, h2⟩, h3⟩ := hresting
      have hfree : IoFree (s.reactor i) :=
        ⟨by simp [h1], (drained_iff hdrained).2.1, (drained_iff hdrained).1, fun _ => h3⟩
      have hnone : s.cycle.agenda i = [] := agenda_nil h1 h2
      have hunsent := unsent_drained ht hdrained
      exact ⟨acted_ioFree hfree hunsent (by simp [hnone]) (by simp [hnone]) hacted,
        hunsent.step ht hs (.inr (hasked hbefore))⟩
  · refine hgone (ha.members.1.symm.trans hst) ?_
    rw [← hzero]
    exact (aside_weigh ha _ rfl fun _ _ => rfl).symm

/-- **One step of a close in order.** -/
theorem freeing_step (hn : 0 < e.ioThreadCount) (h : Freeing e s) (ht : Tracks s ζ) (hc : Consistent e ζ) {a : Action}
    (hg : orderly e s a = true) (hs : step e s a = some s') : Freeing e s' := by
  have hturn := step_turn hs
  have houtgoing := outgoing_step hn h.outgoing h.ordered (orderly_delivers hg) hs
  have hlayered := fun v => acted_layered (h.layered v) (step_acted ht hc hs v)
  have hspare := fun v hv => freeing_spare (v := v) h ht hc hs hv
  cases h.outgoing with
  | opening hopen =>
    -- there is no worker yet
    have hall := fun v => hspare v (show s.ctx.ioWorkers ≤ v from hopen.workers.trans_le (Nat.zero_le v))
    refine ⟨houtgoing, h.ordered.turn hturn, manned_step ht hc h.manned hs, hlayered, fun v _ => hall v,
      fun i _ hheld => (nomatch (hall i).2.symm.trans hheld), fun hst => ?_⟩
    rcases step_milestones hs with ⟨w, c, f, stack, rest, x, rfl, -, hag, hl, hcycle, -⟩ | ⟨-, ha⟩
    · obtain ⟨fs, -, -, hno, -⟩ := hopen.leads hag hl
      rw [← hcycle] at hno
      exact nomatch hno.symm.trans hst
    · exact nomatch hopen.started.symm.trans (ha.members.1.symm.trans hst)
  | opened ho hcourse htell =>
    have hworkers : s'.ctx.ioWorkers = s.ctx.ioWorkers := ho.turn_workers hturn
    have hstays : ∀ i < s.ctx.ioWorkers, s.ctx.shutdownStarted = true → s.cycle.weigh e (LifeFrame.tells i) = 0 →
        s'.ctx.shutdownStarted = true ∧ s'.cycle.weigh e (LifeFrame.tells i) = 0 := by
      intro i hi hst hzero
      rcases step_milestones hs with ⟨w, c, f, stack, rest, x, rfl, -, hag, hl, hcycle, -⟩ | ⟨-, ha⟩
      · have hstarted : s'.ctx.shutdownStarted = x.ctx.shutdownStarted :=
          congrArg (fun κ => κ.ctx.shutdownStarted) hcycle
        refine ⟨hstarted.trans ((lived_monotone hl).2.2.1 hst), ?_⟩
        rw [hcycle]
        exact htell.stays_run ho hcourse hag hl hi hst hzero
      · exact ⟨ha.members.1.trans hst, (aside_weigh ha _ rfl fun _ _ => rfl).trans hzero⟩
    refine ⟨houtgoing, h.ordered.turn hturn, manned_step ht hc h.manned hs, hlayered, fun v hv => ?_, fun i hi hheld => ?_,
      fun hst i hi hzero => ?_⟩
    · exact hspare v (hworkers ▸ hv)
    · rw [hworkers] at hi
      exact freeing_linked h ho htell ht hc hs hi (hstays i hi) hheld
    · rw [hworkers] at hi
      exact freeing_freed h ho hcourse htell ht hc hg hs hi hst hzero

theorem init_freeing (device : Nat → UInt8) : Freeing e (Sys.init device) := by
  have hreactor : ∀ v, ((Sys.init device).reactor v).stack = [] ∧ ((Sys.init device).reactor v).inFlight = [] ∧
      ((Sys.init device).reactor v).channelHeld = false ∧
      ∀ m ∈ ((Sys.init device).reactor v).queue, m.frame.IsLife := by
    intro v
    rcases eq_or_ne v 0 with rfl | hv
    · simp [Sys.init, Msg.frame, Frame.IsLife]
    · simp [Sys.init, hv]
  refine ⟨.opening (init_opening device), init_ordered device, init_manned device, fun v => ?_, fun v _ => ?_,
    fun i hi => absurd hi (Nat.not_lt_zero i), fun hs => (by cases hs)⟩
  · rw [Reactor.Layered, (hreactor v).1]
    exact .nil
  · obtain ⟨h1, h2, h3, h4⟩ := hreactor v
    exact ⟨⟨by simp [h1], h4, h2, fun hheld => absurd (h3.symm.trans hheld) (by simp)⟩, h3⟩

end SpdkBdevContext
end SpdkConnector
