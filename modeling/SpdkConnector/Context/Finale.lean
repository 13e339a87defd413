import SpdkConnector.Context.Tellings

/-!
# The application thread to the end

The teardown is begun once, by a message behind which the application thread has nothing to do (`Finale.first`).
From then on each of its calls has nothing under it but acknowledgements to be made (`Finale.under`), so
`finish_shutdown_on_app_thread`, which comes with the last of them, is alone there; and with the descriptor
closed the bdev has no more to say. When `shutdown_complete_` is set nothing is left but `notify_all`.
-/

namespace SpdkConnector
namespace SpdkBdevContext

open Interleaving

variable {e : Env} {s s' : Sys} {κ κ' : Cycle} {w v i : Nat} {f g : LifeFrame} {rest : List LifeFrame} {x : Effect}
  {c : Members} {ch : Choice} {available : Bool}

/-! ## A close in order -/

/-- Nothing of the bdev is open: what `close()` and `request_shutdown` have nothing to wait for. -/
def Members.NothingOpen (c : Members) : Prop := c.bdevDescriptor = false ∧ c.ioWorkers = 0

instance (c : Members) : Decidable c.NothingOpen := inferInstanceAs (Decidable (_ ∧ _))

/-- SPDK takes the message that begins the teardown. -/
def Sys.takes (s : Sys) : Choice → Bool
  | .code rc => s.runtimeAvailable && rc == 0
  | _ => false

/-- Worker `i` has no command in flight, no I/O message in its ring, and none on its way there. -/
def Sys.drained (s : Sys) (i : Nat) : Bool :=
  (s.reactor i).inFlight.isEmpty && (s.reactor i).queue.all (fun m => m.frame.life?.isSome) &&
  (List.range s.batches).all fun b => match (s.batch b).caller with
    | .sending d _ => d.worker != i
    | _ => true

/-- A reactor with nothing to do, and no request that waits for SPDK. -/
def Reactor.resting (x : Reactor) : Bool := x.stack.isEmpty && x.queue.isEmpty && x.ioWait.isEmpty

/-- The last thing a callback does, after what `close()` waits for. -/
def Frame.parting : Frame → Bool
  | .life .notifyAll | .life (.threadExit _) => true
  | _ => false

/-- The steps of a close that waits for every call: the message that begins the teardown is taken, unless there
is nothing to tear down; a worker is released once drained, and one that cannot be told has nothing to do;
`close()` finds nothing open when the application thread has nothing to do, and returns when no reactor is at
its `notify_all` or its `spdk_thread_exit`. -/
def orderly (e : Env) (s : Sys) : Action → Bool
  | .reactor w c =>
    match (s.reactor w).stack.head? with
    | some (.life .postBeginShutdown) => s.takes c || decide s.ctx.NothingOpen && !s.ctx.closed
    | some (.life .releaseIoWorker) => s.drained w
    | some (.life (.postShutdown i)) =>
      match c with
      | .code rc => rc == 0 || s.drained i && (s.reactor i).resting
      | _ => true
    | _ => true
  | .owner c =>
    match s.owner with
    | .closing =>
      s.ctx.closed || !decide s.ctx.NothingOpen || (s.reactor 0).stack.isEmpty && (s.reactor 0).queue.isEmpty
    | .postingShutdown => s.takes c
    | .releasing => (List.range e.reactors).all fun v => !(s.reactor v).stack.any Frame.parting
    | _ => true
  | _ => true

/-- The part of it that the order of the teardown rests on: its messages are taken, or have nothing to bring about, and
`close()` finds nothing open when the application thread has nothing to do. -/
def delivers (s : Sys) : Action → Bool
  | .reactor w c =>
    match (s.reactor w).stack.head? with
    | some (.life .postBeginShutdown) => s.takes c || decide s.ctx.NothingOpen && !s.ctx.closed
    | some (.life (.postShutdown i)) =>
      match c with
      | .code rc => rc == 0 || (s.reactor i).resting
      | _ => true
    | _ => true
  | .owner c =>
    match s.owner with
    | .closing =>
      s.ctx.closed || !decide s.ctx.NothingOpen || (s.reactor 0).stack.isEmpty && (s.reactor 0).queue.isEmpty
    | .postingShutdown => s.takes c
    | _ => true
  | _ => true

theorem orderly_delivers {a : Action} (h : orderly e s a = true) : delivers s a = true := by
  cases a with
  | reactor w c =>
    simp only [delivers]
    split
    · rename_i hhead
      simpa only [orderly, hhead] using h
    · rename_i i hhead
      split
      · rename_i rc
        have h : rc = 0 ∨ s.drained i = true ∧ (s.reactor i).resting = true := by simpa [orderly, hhead] using h
        simpa using h.imp id And.right
      · rfl
    · rfl
  | owner c =>
    simp only [delivers]
    split
    · rename_i hpc
      simpa only [orderly, hpc] using h
    · rename_i hpc
      simpa only [orderly, hpc] using h
    · rfl
  | _ => rfl

theorem takes_iff : s.takes ch = true ↔ s.runtimeAvailable = true ∧ ch = .code 0 := by
  cases ch <;> simp [Sys.takes]

theorem agenda_nil {y : Reactor} (hst : y.stack = []) (hq : y.queue = []) : y.agenda = [] := by
  simp [Reactor.agenda, hst, hq]

/-! ## The end of the teardown -/

/-- What `shutdown_complete_` stands for. -/
inductive Over (e : Env) (κ : Cycle) : Prop
  /-- `close()` has found nothing open, and nothing going on. -/
  | nothing (hnone : ∀ v, κ.agenda v = []) (h : κ.ctx.NothingOpen) (hc : κ.ctx.closed = true)
      (hpc : κ.owner ≠ .requesting ∧ κ.owner ≠ .postingShutdown)
  /-- The application thread has found nothing open, and `close()` is still to be called. -/
  | unopened (h : κ.ctx.NothingOpen) (hc : κ.ctx.closed = false)
  /-- The teardown is over but for its `notify_all`. -/
  | finished (hd : κ.ctx.bdevDescriptor = false) (hs : κ.ctx.shutdownStarted = true)
      (hacks : κ.total e (LifeFrame.acks κ.ctx.ioWorkers) = 0) (hrest : ∀ g ∈ κ.agenda 0, g = .notifyAll)

theorem Over.descriptor (h : Over e κ) : κ.ctx.bdevDescriptor = false := by
  cases h with
  | nothing hnone h => exact h.1
  | unopened h => exact h.1
  | finished hd => exact hd

structure Finale (e : Env) (κ : Cycle) : Prop where
  begins : κ.total e LifeFrame.begins + (if κ.owner = .postingShutdown then 1 else 0) ≤ 1
  begun : κ.ctx.shutdownStarted = true → κ.total e LifeFrame.begins = 0 ∧ κ.owner ≠ .postingShutdown
  first : κ.ctx.shutdownStarted = false → (κ.agenda 0).Pairwise fun f _ => f ≠ .beginShutdown
  late : κ.ctx.shutdownStarted = true → ∀ g ∈ κ.agenda 0, g.Late
  under : κ.ctx.shutdownStarted = true → ∀ g ∈ (κ.agenda 0).tail, 0 < g.acks κ.ctx.ioWorkers
  finishing : .finishShutdown ∈ κ.agenda 0 → κ.ctx.bdevDescriptor = false ∧ κ.ctx.shutdownStarted = true ∧
    κ.total e (LifeFrame.acks κ.ctx.ioWorkers) = 0
  complete : κ.ctx.shutdownComplete = true → Over e κ
  released : κ.owner = .releasing → κ.ctx.shutdownComplete = true

/-! ## One call -/

theorem lived_begun (hl : Lived e available c w f ch x) : x.weight LifeFrame.begins ≤ f.begins ∨
    x.weight LifeFrame.begins = 1 ∧ c.shutdownRequested = false := by
  cases hl with
  | initializedLast error lastError =>
    left
    cases lastError == "" <;> simp [Effect.weight, LifeFrame.begins]
  | requested rc error lastError code start hstart =>
    cases start with
    | false => exact .inl (by simp [Effect.weight, LifeFrame.begins])
    | true =>
      have hno : c.shutdownRequested = false := by
        cases hr : c.shutdownRequested with
        | false => rfl
        | true => simp [hr] at hstart
      exact .inr ⟨by simp [Effect.weight, LifeFrame.begins], hno⟩
  | begun | released | acknowledged =>
    left
    simp only [Effect.weight]
    split <;> simp [LifeFrame.begins]
  | _ => exact .inl (by simp [Effect.weight, LifeFrame.begins])

theorem begun_light (hl : Lived e available c w .beginShutdown ch x) : x.weight LifeFrame.begins = 0 := by
  cases hl with
  | begunAlready => rfl
  | begun =>
    simp only [Effect.weight]
    split <;> rfl

/-- Once the teardown has started the application thread goes on with it. -/
theorem lived_late (hl : Lived e available c 0 f ch x) (hf : f.Late) (hr : c.shutdownRequested = true) :
    (∀ g ∈ x.calls, g.Late) ∧ ∀ g ∈ x.calls.tail, 0 < g.acks c.ioWorkers := by
  cases hl with
  | requested rc error lastError code start hstart =>
    have hno : start = false := by simpa [hr] using hstart
    simp [hno]
  | acknowledged =>
    dsimp only
    split <;> simp [LifeFrame.Late]
  | notified | shutdownPosted | shutdownFailed | shutdownOwn | flushed | flushedAll | released | descriptorReleased
  | finished => simp [LifeFrame.Late, LifeFrame.acks]
  | _ => exact hf.elim

/-- `finish_shutdown_on_app_thread` closes the descriptor first. -/
theorem lived_finishing (hl : Lived e available c w f ch x) (hg : .finishShutdown ∈ x.calls) :
    f = .releaseDescriptor ∧ x.ctx.bdevDescriptor = false := by
  cases hl with
  | descriptorReleased => exact ⟨rfl, rfl⟩
  | initializedLast error lastError => cases hb : lastError == "" <;> simp [hb] at hg
  | requested rc error lastError code start => cases start <;> simp at hg
  | begun | released | acknowledged =>
    dsimp only at hg
    split at hg <;> simp at hg
  | _ => simp at hg

theorem lived_descriptor (hl : Lived e available c w f ch x) (hf : ¬ f.Early) (hd : c.bdevDescriptor = false) :
    x.ctx.bdevDescriptor = false := by
  cases hl with
  | opened => exact absurd trivial hf
  | descriptorReleased => rfl
  | _ => exact hd

/-- `shutdown_complete_` is set at the end of the teardown, or where it cannot be posted. -/
theorem lived_completed (hl : Lived e available c w f ch x) (hold : c.shutdownComplete = false)
    (hnew : x.ctx.shutdownComplete = true) :
    f = .finishShutdown ∧ x.calls = [.notifyAll] ∧ x.post = none ∨
    f = .postBeginShutdown ∧ ¬ (available = true ∧ ch = .code 0) ∧ x.ctx.bdevDescriptor = c.bdevDescriptor := by
  cases hl with
  | finished => exact .inl ⟨rfl, rfl, rfl⟩
  | beginFailed rc lastError hno => exact .inr ⟨rfl, fun ⟨ha, hc⟩ => hno ⟨ha, Choice.code.inj hc⟩, rfl⟩
  | _ => exact nomatch hold.symm.trans hnew

theorem run_posting : (κ.run w rest x).owner = .postingShutdown ↔ κ.owner = .postingShutdown := by
  simp only [Cycle.run]
  split
  · rcases woken_cases κ.owner with heq | ⟨hold, heq⟩ | ⟨hold, heq⟩ <;> rw [heq] <;> simp [hold]
  · exact Iff.rfl

/-- Until a shutdown is requested nobody begins it. -/
theorem Course.unbegun (h : Course e κ) (hr : κ.ctx.shutdownRequested = false) :
    κ.total e LifeFrame.begins = 0 ∧ κ.owner ≠ .postingShutdown := by
  obtain ⟨-, howner, hnone⟩ := h.unasked hr
  refine ⟨Finset.sum_eq_zero fun v _ => List.sum_eq_zero fun n hn => ?_, howner⟩
  obtain ⟨g, hg, rfl⟩ := List.mem_map.1 hn
  exact hnone v g hg

/-- The application thread's agenda once the teardown has started: a call comes off, others on, or an
acknowledgement is posted. -/
theorem Finale.run_late (h : Finale e κ) (htell : Telling e κ) (ho : Opened e κ) (hord : Ordered κ)
    (hpath : κ.ctx.shutdownStarted = true → κ.ctx.shutdownRequested = true) (hag : κ.agenda w = f :: rest)
    (hl : Lived e available κ.ctx w f ch x) (hs : x.ctx.shutdownStarted = true) :
    (∀ g ∈ (κ.run w rest x).agenda 0, g.Late) ∧
    ∀ g ∈ ((κ.run w rest x).agenda 0).tail, 0 < g.acks κ.ctx.ioWorkers := by
  have hmem : f ∈ κ.agenda w := hag ▸ List.mem_cons_self
  have hw := (ho.confined w f hmem).1
  by_cases hbefore : κ.ctx.shutdownStarted = true
  · have hlate := h.late hbefore
    have hunder := h.under hbefore
    have hzero := (h.begun hbefore).1
    have hbegins : f.begins = 0 := by
      have hle := weight_le_weigh (e := e) (fun _ => LifeFrame.begins) hw hmem
      have hle : f.begins ≤ κ.total e LifeFrame.begins := hle
      omega
    have hpost : ∀ g, x.post = some (0, g) → f = .postFinish ∧ g = .onIoWorkerShutdown := by
      intro g hx
      rcases lived_posts hl hx with ⟨-, rfl, -⟩ | ⟨-, hfg⟩ | ⟨rfl, -⟩ | ⟨rfl, -⟩
      · cases hbegins
      · exact hfg
      · exact absurd (hord.index w 0 hmem) (by decide)
      · exact absurd (htell.index w 0 hmem) (by decide)
    rw [run_agenda]
    by_cases hw0 : w = 0
    · subst hw0
      rw [hag] at hlate hunder
      obtain ⟨hcalls, htail⟩ := lived_late hl (hlate f List.mem_cons_self) (hpath hbefore)
      have hnone : (x.post.elim [] fun p => if 0 = p.1 then [p.2] else []) = [] := by
        cases hx : x.post with
        | none => rfl
        | some p =>
          rw [Option.elim_some]
          split
          · rename_i hp
            obtain ⟨rfl, -⟩ := hpost p.2 (by rw [hx, hp])
            exact (hlate _ List.mem_cons_self).elim
          · rfl
      rw [if_pos rfl, hnone, List.append_nil]
      refine ⟨fun g hg => ?_, fun g hg => ?_⟩
      · rcases List.mem_append.1 hg with hg | hg
        · exact hcalls g hg
        · exact hlate g (List.mem_cons_of_mem _ hg)
      · cases hx : x.calls with
        | nil =>
          rw [hx, List.nil_append] at hg
          exact hunder g (List.mem_of_mem_tail hg)
        | cons a l =>
          rw [hx, List.cons_append, List.tail_cons] at hg
          rw [hx] at htail
          rcases List.mem_append.1 hg with hg | hg
          · exact htail g hg
          · exact hunder g hg
    · rw [if_neg (Ne.symm hw0)]
      cases hx : x.post with
      | none =>
        rw [Option.elim_none, List.append_nil]
        exact ⟨hlate, hunder⟩
      | some p =>
        rw [Option.elim_some]
        split
        · rename_i hp
          obtain ⟨-, hack⟩ := hpost p.2 (by rw [hx, hp])
          rw [hack]
          refine ⟨fun g hg => ?_, fun g hg => ?_⟩
          · rcases List.mem_append.1 hg with hg | hg
            · exact hlate g hg
            · obtain rfl := List.mem_singleton.1 hg
              trivial
          · cases ha : κ.agenda 0 with
            | nil =>
              rw [ha] at hg
              cases hg
            | cons a l =>
              rw [ha, List.cons_append, List.tail_cons] at hg
              rw [ha] at hunder
              rcases List.mem_append.1 hg with hg | hg
              · exact hunder g hg
              · obtain rfl := List.mem_singleton.1 hg
                exact Nat.zero_lt_one
        · rw [List.append_nil]
          exact ⟨hlate, hunder⟩
  · -- the teardown starts, with nothing behind the call
    have hno : κ.ctx.shutdownStarted = false := Bool.eq_false_iff.2 hbefore
    obtain ⟨rfl, -⟩ := (lived_started hl hs).resolve_left hbefore
    obtain rfl := hord.zero w _ hmem (.inr rfl)
    have hpair := h.first hno
    rw [hag, List.pairwise_cons] at hpair
    have hrest : rest = [] := List.eq_nil_iff_forall_not_mem.2 fun g hg => hpair.1 g hg rfl
    cases hl with
    | begunAlready hs => exact absurd hs hbefore
    | begun =>
      rw [run_agenda, if_pos rfl, hrest]
      dsimp only
      split <;> simp [LifeFrame.Late]

theorem Finale.run (h : Finale e s.cycle) (htell : Telling e s.cycle) (ho : Opened e s.cycle) (hord : Ordered s.cycle)
    (hcourse : Course e s.cycle) (hag : s.cycle.agenda w = f :: rest) (hl : Lived e s.runtimeAvailable s.ctx w f ch x)
    (hbegin : f = .postBeginShutdown → s.runtimeAvailable = true ∧ ch = .code 0 ∨
      s.ctx.NothingOpen ∧ s.ctx.closed = false)
    (hover : s.ctx.shutdownStarted = true → s.cycle.total e (LifeFrame.acks s.ctx.ioWorkers) = 0 →
      x.ctx.shutdownStarted = true ∧ (s.cycle.run w rest x).total e (LifeFrame.acks s.ctx.ioWorkers) = 0) :
    Finale e (s.cycle.run w rest x) := by
  have hmem : f ∈ s.cycle.agenda w := hag ▸ List.mem_cons_self
  obtain ⟨hw, hf⟩ := ho.confined w f hmem
  have hpost := fun u g hx => ((lived_confined hl hf ho.workers).2 u g hx).1
  have hworkers : x.ctx.ioWorkers = s.ctx.ioWorkers := (lived_same hl hf).1
  have hpath : s.ctx.shutdownStarted = true → s.ctx.shutdownRequested = true := (Path.opened ho hcourse).started
  have htotal := total_run hag hw hpost LifeFrame.begins
  have hle : f.begins ≤ s.cycle.total e LifeFrame.begins := weight_le_weigh (e := e) (fun _ => LifeFrame.begins) hw hmem
  have hacks : ∀ u, ∀ g ∈ s.cycle.agenda u, s.cycle.total e (LifeFrame.acks s.ctx.ioWorkers) = 0 →
      g.acks s.ctx.ioWorkers = 0 := by
    intro u g hg hzero
    have hle := weight_le_weigh (e := e) (fun _ => LifeFrame.acks s.ctx.ioWorkers) (ho.confined u g hg).1 hg
    have hle : g.acks s.ctx.ioWorkers ≤ s.cycle.total e (LifeFrame.acks s.ctx.ioWorkers) := hle
    omega
  have hbegins := h.begins
  refine ⟨?_, fun hs => ?_, fun hs => ?_, fun hs => ?_, fun hs => ?_, fun hg => ?_, fun hdone => ?_, fun hpc => ?_⟩
  · rw [if_congr run_posting rfl rfl]
    rcases lived_begun hl with hle' | ⟨hone, hno⟩
    · omega
    · obtain ⟨hzero, hpc⟩ := hcourse.unbegun hno
      rw [if_neg hpc]
      omega
  · rw [Ne, run_posting]
    by_cases hbefore : s.ctx.shutdownStarted = true
    · obtain ⟨hzero, hpc⟩ := h.begun hbefore
      refine ⟨?_, hpc⟩
      rcases lived_begun hl with hle' | ⟨-, hno⟩
      · omega
      · exact nomatch (hpath hbefore).symm.trans hno
    · obtain ⟨rfl, -⟩ := (lived_started hl hs).resolve_left hbefore
      have hone : LifeFrame.beginShutdown.begins = 1 := rfl
      rcases lived_begun hl with hle' | ⟨-, hno⟩
      · by_cases hpc : s.cycle.owner = .postingShutdown
        · rw [if_pos hpc] at hbegins
          omega
        · have hlight := begun_light hl
          refine ⟨?_, hpc⟩
          omega
      · have hzero := (hcourse.unbegun hno).1
        omega
  · -- the message that begins the teardown is the last
    have hno : s.ctx.shutdownStarted = false := by
      by_contra hbefore
      exact nomatch hs.symm.trans ((lived_monotone hl).2.2.1 (by simpa using hbefore))
    have hcalls := fun a ha => ((lived_phase hl).1 a ha).2.2
    have hpair := h.first hno
    refine run_pairwise (fun hvw => ?_) (fun _ => hpair) fun g hx a ha => ?_
    · rw [hvw, hag, List.pairwise_cons] at hpair
      refine List.pairwise_append.2 ⟨?_, hpair.2, fun a ha b _ => hcalls a ha⟩
      exact List.pairwise_of_forall_mem_list fun a ha b _ => hcalls a ha
    · rcases lived_posts hl hx with ⟨-, rfl, -⟩ | ⟨-, rfl, -⟩ | ⟨rfl, -⟩ | ⟨rfl, -⟩
      · have hone : s.cycle.weigh e (fun _ => LifeFrame.begins) ≤ 1 := by
          have hsum : s.cycle.weigh e (fun _ => LifeFrame.begins) = s.cycle.total e LifeFrame.begins := rfl
          omega
        obtain ⟨hunder, hothers⟩ := weigh_once (fun _ => LifeFrame.begins) hag hw rfl hone
        split at ha
        · rcases List.mem_append.1 ha with ha | ha
          · exact hcalls a ha
          · rintro rfl
            exact nomatch hunder _ ha
        · rename_i hvw
          rintro rfl
          exact nomatch hothers 0 (zero_reactors e) hvw _ ha
      · exact nomatch hacks w _ hmem (hcourse.before hno)
      · exact absurd (hord.index w 0 hmem) (by decide)
      · exact absurd (htell.index w 0 hmem) (by decide)
  · exact (h.run_late htell ho hord hpath hag hl hs).1
  · have hunder := (h.run_late htell ho hord hpath hag hl hs).2
    rwa [show (s.cycle.run w rest x).ctx.ioWorkers = s.cycle.ctx.ioWorkers from hworkers]
  · show x.ctx.bdevDescriptor = false ∧ x.ctx.shutdownStarted = true ∧
      (s.cycle.run w rest x).total e (LifeFrame.acks x.ctx.ioWorkers) = 0
    rw [hworkers]
    rcases mem_run hag hg with hold | ⟨-, hcall⟩ | hx
    · obtain ⟨h1, h2, h3⟩ := h.finishing hold
      exact ⟨lived_descriptor hl hf h1, hover h2 h3⟩
    · obtain ⟨rfl, hd⟩ := lived_finishing hl hcall
      obtain ⟨h2, h3⟩ := hcourse.last w hmem
      exact ⟨hd, hover h2 h3⟩
    · rcases lived_posts hl hx with ⟨-, -, hg⟩ | ⟨-, -, hg⟩ | ⟨-, hg⟩ | ⟨-, hg⟩ <;> cases hg
  · by_cases hbefore : s.ctx.shutdownComplete = true
    · cases h.complete hbefore with
      | nothing hnone => exact nomatch hag.symm.trans (hnone w)
      | unopened hopen hc =>
        exact .unopened ⟨lived_descriptor hl hf hopen.1, hworkers.trans hopen.2⟩ ((lived_same hl hf).2.1.trans hc)
      | finished hd hst hzero hrest =>
        obtain ⟨hst', hzero'⟩ := hover hst hzero
        refine .finished (lived_descriptor hl hf hd) hst' (hworkers ▸ hzero') fun g hg => ?_
        rcases mem_run hag hg with hold | ⟨rfl, hcall⟩ | hx
        · exact hrest g hold
        · obtain rfl := hrest f hmem
          cases hl with
          | notified => cases hcall
        · rcases lived_posts hl hx with ⟨-, rfl, -⟩ | ⟨-, rfl, -⟩ | ⟨rfl, -⟩ | ⟨rfl, -⟩
          · have hnone := (h.begun hst).1
            have hone : LifeFrame.postBeginShutdown.begins = 1 := rfl
            omega
          · exact nomatch hacks w _ hmem hzero
          · exact absurd (hord.index w 0 hmem) (by decide)
          · exact absurd (htell.index w 0 hmem) (by decide)
    · rcases lived_completed hl (Bool.eq_false_iff.2 hbefore) hdone with ⟨rfl, hcalls, hnone⟩ | ⟨rfl, hno, hsame⟩
      · -- it is set with the last acknowledgement made, and nothing under the call
        obtain rfl := htell.central w _ hmem trivial
        obtain ⟨h1, h2, h3⟩ := h.finishing hmem
        obtain ⟨h5, h6⟩ := hover h2 h3
        refine .finished (lived_descriptor hl hf h1) h5 (hworkers ▸ h6) fun g hg => ?_
        have hrest : rest = [] := by
          refine List.eq_nil_iff_forall_not_mem.2 fun g hg => ?_
          have hpos := h.under h2 g (by rw [hag]; exact hg)
          have hzero := hacks 0 g (hag ▸ List.mem_cons_of_mem _ hg) h3
          exact absurd hpos (Nat.not_lt.2 hzero.le)
        rw [run_agenda, if_pos rfl, hcalls, hnone, hrest] at hg
        simpa using hg
      · obtain ⟨hopen, hc⟩ := (hbegin rfl).resolve_left hno
        exact .unopened ⟨hsame.trans hopen.1, hworkers.trans hopen.2⟩ ((lived_same hl hf).2.1.trans hc)
  · have hold : s.cycle.owner = .releasing := by
      simp only [Cycle.run] at hpc
      split at hpc
      · rcases woken_cases s.cycle.owner with heq | ⟨-, heq⟩ | ⟨-, heq⟩ <;> rw [heq] at hpc
        · exact hpc
        · cases hpc
        · cases hpc
      · exact hpc
    exact (lived_monotone hl).2.1 (h.released hold)

/-! ## One step -/

theorem Over.congr (h : Over e κ) (hag : κ'.agenda = κ.agenda) (hd : κ'.ctx.bdevDescriptor = κ.ctx.bdevDescriptor)
    (hs : κ'.ctx.shutdownStarted = κ.ctx.shutdownStarted) (hn : κ'.ctx.ioWorkers = κ.ctx.ioWorkers)
    (hc : κ'.ctx.closed = κ.ctx.closed ∨ ¬ κ.ctx.NothingOpen ∧ κ.ctx.closed = false)
    (hpc : κ.owner ≠ .requesting → κ.owner ≠ .postingShutdown → κ.ctx.closed = true →
      κ'.owner ≠ .requesting ∧ κ'.owner ≠ .postingShutdown) : Over e κ' := by
  cases h with
  | nothing hnone hopen hc' hpc' =>
    have hclosed : κ'.ctx.closed = κ.ctx.closed := hc.resolve_right fun h => nomatch h.2.symm.trans hc'
    exact .nothing (hag ▸ hnone) ⟨hd.trans hopen.1, hn.trans hopen.2⟩ (hclosed.trans hc') (hpc hpc'.1 hpc'.2 hc')
  | unopened hopen hc' =>
    exact .unopened ⟨hd.trans hopen.1, hn.trans hopen.2⟩ ((hc.resolve_right fun h => h.1 hopen).trans hc')
  | finished hd' hs' hacks hrest =>
    refine .finished (hd.trans hd') (hs.trans hs') ?_ (hag ▸ hrest)
    rw [Cycle.total, hag, hn]
    exact hacks

/-- While `close()` posts the teardown nobody else begins it. -/
theorem Finale.posting (h : Finale e κ) (hpc : κ.owner = .postingShutdown) :
    κ.total e LifeFrame.begins = 0 ∧ κ.ctx.shutdownStarted = false := by
  have hbegins := h.begins
  rw [if_pos hpc] at hbegins
  refine ⟨by omega, ?_⟩
  by_contra hst
  exact (h.begun (by simpa using hst)).2 hpc

/-- The calls are the same ones. -/
theorem Finale.congr (h : Finale e κ) (hag : κ'.agenda = κ.agenda) (hd : κ'.ctx.bdevDescriptor = κ.ctx.bdevDescriptor)
    (hs : κ'.ctx.shutdownStarted = κ.ctx.shutdownStarted) (hn : κ'.ctx.ioWorkers = κ.ctx.ioWorkers)
    (hpc : κ'.owner = .postingShutdown → κ.total e LifeFrame.begins = 0 ∧ κ.ctx.shutdownStarted = false)
    (hover : κ'.ctx.shutdownComplete = true → Over e κ')
    (hreleased : κ'.owner = .releasing → κ'.ctx.shutdownComplete = true) : Finale e κ' := by
  have htotal : ∀ weight : LifeFrame → Nat, κ'.total e weight = κ.total e weight := fun weight => by
    rw [Cycle.total, hag, Cycle.total]
  have hbegins := h.begins
  refine ⟨?_, ?_, ?_, ?_, ?_, ?_, hover, hreleased⟩
  · rw [htotal]
    split
    · rw [(hpc ‹_›).1]
    · omega
  · rw [hs, htotal]
    exact fun hst => ⟨(h.begun hst).1, fun hpost => nomatch (hpc hpost).2.symm.trans hst⟩
  · rw [hs, hag]
    exact h.first
  · rw [hs, hag]
    exact h.late
  · rw [hs, hag, hn]
    exact h.under
  · rw [hs, hag, hd, hn, htotal]
    exact h.finishing

/-- An event of the bdev, which is open. -/
theorem Finale.event (h : Finale e κ) (hd : κ.ctx.bdevDescriptor = true) (hposted : ∀ g ∈ κ.agenda 0, g.Posted)
    (rc : Int) (error : String) : Finale e (κ.put 0 (.requestShutdown rc error :: κ.agenda 0)) := by
  have hag : (κ.put 0 (.requestShutdown rc error :: κ.agenda 0)).agenda 0 = .requestShutdown rc error :: κ.agenda 0 := by
    rw [put_agenda, Function.update_self]
  have htotal : (κ.put 0 (.requestShutdown rc error :: κ.agenda 0)).total e LifeFrame.begins =
      κ.total e LifeFrame.begins := weigh_first (zero_reactors e) (fun _ => LifeFrame.begins) rfl
  refine ⟨htotal ▸ h.begins, fun hs => ?_, fun hs => ?_, fun hs g hg => ?_, fun hs g hg => ?_, fun hg => ?_, fun hdone => ?_,
    h.released⟩
  · rw [htotal]
    exact h.begun hs
  · rw [hag, List.pairwise_cons]
    exact ⟨fun _ _ => nofun, h.first hs⟩
  · rw [hag] at hg
    rcases List.mem_cons.1 hg with rfl | hg
    · trivial
    · exact h.late hs g hg
  · -- a message of the teardown is an acknowledgement, or leads to one
    rw [hag, List.tail_cons] at hg
    have hlate := h.late hs g hg
    have hg := hposted g hg
    cases g with
    | shutdownIoWorker | onIoWorkerShutdown => exact Nat.zero_lt_one
    | onRuntimeReady | initializeIoWorker | beginShutdown => exact hlate.elim
    | _ => exact hg.elim
  · rw [hag] at hg
    rcases List.mem_cons.1 hg with hg | hg
    · cases hg
    · exact nomatch hd.symm.trans (h.finishing hg).1
  · exact nomatch hd.symm.trans (h.complete hdone).descriptor

/-- The owner posts the message that begins the teardown. -/
theorem Finale.posts (h : Finale e κ) (hpc : κ.owner = .postingShutdown) (hclosed : κ.ctx.closed = true) :
    Finale e { κ.put 0 (κ.agenda 0 ++ [.beginShutdown]) with owner := .closeWaiting } := by
  obtain ⟨hbegins, hno⟩ := h.posting hpc
  have hput := total_put (κ := κ) (zero_reactors e) LifeFrame.begins (κ.agenda 0 ++ [.beginShutdown])
  rw [List.map_append, List.sum_append] at hput
  have hag : Function.update κ.agenda 0 (κ.agenda 0 ++ [.beginShutdown]) 0 = κ.agenda 0 ++ [.beginShutdown] :=
    Function.update_self _ _ _
  refine ⟨?_, fun hs => (nomatch hno.symm.trans hs), fun _ => ?_, fun hs => (nomatch hno.symm.trans hs),
    fun hs => (nomatch hno.symm.trans hs), fun hg => ?_, fun hdone => ?_, nofun⟩
  · have hone : ([LifeFrame.beginShutdown].map LifeFrame.begins).sum = 1 := rfl
    show (κ.put 0 (κ.agenda 0 ++ [.beginShutdown])).total e LifeFrame.begins + 0 ≤ 1
    omega
  · show List.Pairwise _ (Function.update κ.agenda 0 (κ.agenda 0 ++ [.beginShutdown]) 0)
    rw [hag, List.pairwise_append]
    refine ⟨h.first hno, List.pairwise_singleton _ _, ?_⟩
    rintro a ha b - rfl
    have hle := weight_le_weigh (e := e) (fun _ => LifeFrame.begins) (zero_reactors e) ha
    have hle : 1 ≤ κ.total e LifeFrame.begins := hle
    omega
  · have hg : LifeFrame.finishShutdown ∈ Function.update κ.agenda 0 (κ.agenda 0 ++ [.beginShutdown]) 0 := hg
    rw [hag] at hg
    rcases List.mem_append.1 hg with hg | hg
    · exact nomatch hno.symm.trans (h.finishing hg).2.1
    · simp at hg
  · cases h.complete hdone with
    | nothing _ _ _ hpc' => exact absurd hpc hpc'.2
    | unopened _ hc => exact nomatch hclosed.symm.trans hc
    | finished _ hs => exact nomatch hno.symm.trans hs

theorem Finale.turn (h : Finale e s.cycle) (htell : Telling e s.cycle) (ho : Opened e s.cycle) (hord : Ordered s.cycle)
    (hcourse : Course e s.cycle) {a : Action} (hg : delivers s a = true) (ht : Turn e s a κ')
    (hover : s.ctx.shutdownStarted = true → s.cycle.total e (LifeFrame.acks s.ctx.ioWorkers) = 0 →
      κ'.ctx.shutdownStarted = true ∧ κ'.total e (LifeFrame.acks s.ctx.ioWorkers) = 0) : Finale e κ' := by
  have hclosing := ho.closing
  -- the owner goes on, and asks for nothing
  have howner : ∀ (pc : OwnerPc) (c : Members), c.bdevDescriptor = s.ctx.bdevDescriptor →
      c.shutdownStarted = s.ctx.shutdownStarted → c.ioWorkers = s.ctx.ioWorkers →
      c.shutdownComplete = s.ctx.shutdownComplete →
      (c.closed = s.ctx.closed ∨ ¬ s.ctx.NothingOpen ∧ s.ctx.closed = false) → pc ≠ .postingShutdown →
      (pc = .requesting → s.ctx.closed = false ∨ s.owner = .requesting ∨ s.owner = .postingShutdown) →
      (pc = .releasing → s.ctx.shutdownComplete = true) → Finale e { s.cycle with ctx := c, owner := pc } := by
    intro pc c hd hs hn hdone hc hpc hreq hreleased
    refine h.congr rfl hd hs hn (fun h => absurd h hpc) (fun hc' => ?_) fun h => hdone.trans (hreleased h)
    refine (h.complete (hdone.symm.trans hc')).congr rfl hd hs hn hc fun h1 h2 h3 => ⟨fun heq => ?_, hpc⟩
    rcases hreq heq with hno | hno | hno
    · exact nomatch hno.symm.trans h3
    · exact h1 hno
    · exact h2 hno
  cases ht with
  | idle => exact h
  | counted operation items memory n =>
    exact h.congr rfl rfl rfl rfl h.posting
      (fun hdone => (h.complete hdone).congr rfl rfl rfl rfl (.inl rfl) fun h1 h2 _ => ⟨h1, h2⟩) h.released
  | stops =>
    exact h.congr rfl rfl rfl rfl h.posting
      (fun hdone => (h.complete hdone).congr rfl rfl rfl rfl (.inl rfl) fun h1 h2 _ => ⟨h1, h2⟩) h.released
  | run w c f stack rest x hst hag hl =>
    refine h.run htell ho hord hcourse hag hl ?_ hover
    rintro rfl
    rw [delivers, hst, List.head?_cons] at hg
    rcases Bool.or_eq_true_iff.1 hg with hg | hg
    · exact .inl (takes_iff.1 hg)
    · exact .inr (by simpa using hg)
  | event c rc error hd hposted => exact h.event hd hposted rc error
  | owner c κ ho' =>
    cases ho' with
    | checked hpc =>
      refine howner _ _ rfl rfl rfl rfl (.inl rfl) ?_ ?_ ?_
      all_goals
        split
        · split <;> nofun
        · nofun
    | wokenInitialization hpc => exact howner _ _ rfl rfl rfl rfl (.inl rfl) nofun nofun nofun
    | wokenShutdown hpc => exact howner _ _ rfl rfl rfl rfl (.inl rfl) nofun nofun nofun
    | close hpc => exact howner _ _ rfl rfl rfl rfl (.inl rfl) nofun nofun nofun
    | closedAlready hpc hc => exact howner _ _ rfl rfl rfl rfl (.inl rfl) nofun nofun nofun
    | marked hpc hc hr =>
      refine howner _ _ rfl rfl rfl rfl (.inr ⟨?_, hc⟩) nofun (fun _ => .inl hc) nofun
      rintro ⟨hd, hn⟩
      rcases hr with hr | hr
      · exact nomatch hd.symm.trans hr
      · exact hr hn
    | nothingOpen hpc hc hd hw =>
      -- the application thread has nothing to do, and there is no other
      have hempty : (s.reactor 0).stack = [] ∧ (s.reactor 0).queue = [] := by
        have hpc : s.owner = .closing := hpc
        have hc : s.ctx.closed = false := hc
        have hopen : s.ctx.NothingOpen := ⟨hd, hw⟩
        simpa [delivers, hpc, hc, hopen] using hg
      refine h.congr rfl rfl rfl rfl nofun (fun _ => ?_) nofun
      refine .nothing (fun v => List.eq_nil_iff_forall_not_mem.2 fun g hg => ?_) ⟨hd, hw⟩ rfl ⟨nofun, nofun⟩
      rcases htell.hosted v g hg with rfl | hv
      · have hg : g ∈ (s.reactor 0).agenda := hg
        rw [agenda_nil hempty.1 hempty.2] at hg
        cases hg
      · rw [hw] at hv
        exact Nat.not_lt_zero v hv
    | requested hpc lastError code start hs =>
      cases start with
      | false =>
        refine h.congr rfl rfl rfl rfl nofun (fun hdone => ?_) nofun
        exact (h.complete hdone).congr rfl rfl rfl rfl (.inl rfl) fun _ _ _ => ⟨nofun, nofun⟩
      | true =>
        have hno : s.ctx.shutdownRequested = false := by
          by_contra hr
          rw [show s.cycle.ctx.shutdownRequested = true from Bool.not_eq_false _ ▸ hr] at hs
          cases hs
        have hunasked := hcourse.unasked hno
        refine h.congr rfl rfl rfl rfl (fun _ => ⟨(hcourse.unbegun hno).1, hunasked.1⟩) (fun hdone => ?_) nofun
        refine (h.complete hdone).congr rfl rfl rfl rfl (.inl rfl) fun hne _ _ => absurd hpc hne
    | beginPosted hpc ha => exact h.posts hpc (hclosing (by rw [hpc]; trivial))
    | beginFailed hpc rc lastError ha =>
      have hpc : s.owner = .postingShutdown := hpc
      rw [delivers, hpc] at hg
      obtain ⟨havailable, hcode⟩ := takes_iff.1 hg
      exact absurd ⟨havailable, Choice.code.inj hcode⟩ ha
    | waited hpc =>
      refine howner _ _ rfl rfl rfl rfl (.inl rfl) ?_ ?_ fun hpc => ?_
      · split <;> nofun
      · split <;> nofun
      · split at hpc
        · rename_i hdone
          exact hdone
        · cases hpc
    | claimReleased hpc => exact howner _ _ rfl rfl rfl rfl (.inl rfl) nofun nofun nofun

/-! ## From the first call on -/

theorem finale_single {fs : List LifeFrame} (hag : κ.agenda = Function.update (fun _ => []) 0 fs)
    (hs : κ.ctx.shutdownStarted = false) (hdone : κ.ctx.shutdownComplete = false)
    (hpc : κ.owner = .constructing ∨ κ.owner = .sleepingInitialization)
    (hfs : ∀ g ∈ fs, g.begins = 0 ∧ g ≠ .finishShutdown) : Finale e κ := by
  have hzero : κ.agenda 0 = fs := by rw [hag, Function.update_self]
  have hbegins : κ.total e LifeFrame.begins = 0 := by
    refine (weigh_single hag fun _ => LifeFrame.begins).trans (List.sum_eq_zero fun n hn => ?_)
    obtain ⟨g, hg, rfl⟩ := List.mem_map.1 hn
    exact (hfs g hg).1
  have hposting : κ.owner ≠ .postingShutdown := by
    rcases hpc with hpc | hpc <;> rw [hpc] <;> nofun
  refine ⟨?_, fun hst => (nomatch hs.symm.trans hst), fun _ => ?_, fun hst => (nomatch hs.symm.trans hst),
    fun hst => (nomatch hs.symm.trans hst), fun hg => ?_, fun h => (nomatch hdone.symm.trans h), fun h => ?_⟩
  · rw [hbegins, if_neg hposting]
    exact Nat.zero_le 1
  · rw [hzero]
    refine List.pairwise_of_forall_mem_list fun a ha b _ => ?_
    rintro rfl
    exact nomatch (hfs _ ha).1
  · rw [hzero] at hg
    exact absurd rfl (hfs _ hg).2
  · rcases hpc with hpc | hpc <;> exact nomatch hpc.symm.trans h

/-- The call of the opening leads to calls of the application thread alone. -/
theorem Opening.leads (h : Opening s.cycle) (hag : s.cycle.agenda w = f :: rest)
    (hl : Lived e s.runtimeAvailable s.ctx w f ch x) : ∃ fs,
    (s.cycle.run w rest x).agenda = Function.update (fun _ => []) 0 fs ∧
    (∀ g ∈ fs, ¬ g.Tearing ∧ g.begins = 0 ∧ g ≠ .finishShutdown) ∧
    (s.cycle.run w rest x).ctx.shutdownStarted = false ∧ (s.cycle.run w rest x).ctx.shutdownComplete = false ∧
    (s.cycle.run w rest x).owner = s.owner := by
  obtain ⟨f', hagenda, hf⟩ := h.agenda
  obtain ⟨rfl, hfs⟩ := single_head hagenda hag
  obtain ⟨rfl, rfl⟩ := List.cons.inj hfs
  rcases hf with ⟨rfl, -⟩ | ⟨rfl, -⟩ <;> cases hl <;>
    exact ⟨_, run_single hagenda rfl (List.append_nil _), by simp [LifeFrame.Tearing, LifeFrame.begins], h.started,
      h.complete, rfl⟩

/-- The calls of a context whose close is in order. -/
inductive Outgoing (e : Env) (κ : Cycle) : Prop
  | opening (h : Opening κ)
  | opened (ho : Opened e κ) (hcourse : Course e κ) (htell : Telling e κ) (hfinale : Finale e κ)

theorem Outgoing.path (h : Outgoing e κ) : Path e κ := by
  cases h with
  | opening h => exact .opening h
  | opened ho hcourse => exact .opened ho hcourse

theorem outgoing_step (hn : 0 < e.ioThreadCount) (h : Outgoing e s.cycle) (hord : Ordered s.cycle) {a : Action}
    (hg : delivers s a = true) (hs : step e s a = some s') : Outgoing e s'.cycle := by
  have hturn := step_turn hs
  cases h with
  | opening h =>
    rcases step_milestones hs with ⟨w, c, f, stack, rest, x, rfl, -, hag, hl, hcycle, -⟩ | ⟨-, ha⟩
    · rcases h.path hn hag hl hcycle (h.turn hturn) with hopen | ⟨ho, hcourse⟩
      · exact .opening hopen
      · obtain ⟨fs, hagenda, hfs, hst, hdone, hpc⟩ := h.leads hag hl
        rw [← hcycle] at hagenda hst hdone hpc
        exact .opened ho hcourse (telling_single hagenda hst fun g hg => (hfs g hg).1)
          (finale_single hagenda hst hdone (hpc ▸ h.owner) fun g hg => (hfs g hg).2)
    · exact .opening (h.aside ha (h.turn hturn))
  | opened ho hcourse htell hfinale =>
    have hworkers : s'.ctx.ioWorkers = s.ctx.ioWorkers := ho.turn_workers hturn
    have hfinale' : Finale e s'.cycle := hfinale.turn htell ho hord hcourse hg hturn fun hst hacks => by
      obtain ⟨h1, h2⟩ := (Path.opened ho hcourse).over hst hacks hs
      exact ⟨h1, hworkers ▸ h2⟩
    rcases step_milestones hs with ⟨w, c, f, stack, rest, x, rfl, hst, hag, hl, hcycle, -⟩ | ⟨-, ha⟩
    · refine .opened (ho.turn hturn) (hcycle ▸ hcourse.run ho hord hag hl) (hcycle ▸ ?_) hfinale'
      refine htell.run ho hord hcourse hag hl ?_
      rintro i rc rfl rfl hrc
      rw [delivers, hst, List.head?_cons] at hg
      have hidle : ((s.reactor i).stack = [] ∧ (s.reactor i).queue = []) ∧ (s.reactor i).ioWait = [] := by
        simpa [hrc, Reactor.resting] using hg
      exact agenda_nil hidle.1.1 hidle.1.2
    · exact .opened (ho.turn hturn) (hcourse.aside ha) (htell.aside ha) hfinale'

end SpdkBdevContext
end SpdkConnector
