import SpdkConnector.Context.Reactors
import SpdkConnector.Context.Waiters

/-!
# When a request is started

`execute_io_on_worker` sets `started`, and nothing else does. So a request its caller has not posted, or whose
dispatch its worker has not come to, is not started (`Unstarted`).
-/

namespace SpdkConnector
namespace SpdkBdevContext

open Interleaving

variable {e : Env} {s s' s1 : Sys} {κ κ' : Core} {w v : Nat} {r : Ref} {x y : Reactor} {rest : List Frame}

/-- One request changes, and is not started by it. -/
theorem started_update {request : Ref → IoRequest} {r' : Ref} {q : IoRequest}
    (hq : q.started = (request r').started) (h : (Function.update request r' q r).started = true) :
    (request r).started = true := by
  rcases eq_or_ne r r' with rfl | hr
  · rwa [Function.update_self, hq] at h
  · rwa [Function.update_of_ne hr] at h

theorem runIo_started (ht : Tracks s κ) (hc : Consistent e κ) {f : IoFrame} (hst : (s.reactor w).stack = .io f :: rest)
    {c : Choice} {fs : List IoFrame}
    (h : runIo e (s.setReactor w { s.reactor w with stack := rest }) w f c = some (s1, fs))
    (hs : (s1.request r).started = true) : (s.request r).started = true ∨ f = .executeIo r := by
  have htidy := ht.tidy.reactor w
  have hpopped : ((s.setReactor w { s.reactor w with stack := rest }).reactor w) =
      { s.reactor w with stack := rest } := by simp [Sys.setReactor]
  have hreq : (s.setReactor w { s.reactor w with stack := rest }).request = s.request := rfl
  have hentry : ∀ y ∈ f.entries, κ.stage y.1 = y.2 ∧ (s.request y.1).worker = w := fun y hy =>
    ht.entry (entries_frame (f := .io f) (hst ▸ List.mem_cons_self) hy)
  unfold runIo at h
  split at h
  · cases h
    exact .inl hs
  · cases h
    exact .inl hs
  · -- `execute_io_on_worker`
    rename_i r' submitResult waitResult sendResult
    obtain ⟨hstage, hw⟩ := hentry (r', .queued) (by simp [IoFrame.entries])
    have hfits := hc.fits r'
    rw [show κ.stage r' = .queued from hstage, ht.request] at hfits
    have hspec := executeIo_spec (e := e) (s := s.setReactor w { s.reactor w with stack := rest }) (w := w) (r := r')
      hw (by rw [hpopped]; exact htidy.pool) (by rw [hpopped]; exact htidy.buffers) hfits.2.2.1
      submitResult waitResult sendResult
    rw [Option.some.inj h] at hspec
    obtain ⟨-, -, q', hcase, -⟩ := hspec
    rcases eq_or_ne r r' with rfl | hr
    · exact .inr rfl
    · left
      rcases hcase with ⟨dma, y, hrequest, -⟩ | ⟨k, free, -, -, -, hrequest, -⟩
      · rwa [hrequest, Function.update_of_ne hr] at hs
      · rwa [hrequest, Function.update_of_ne hr] at hs
  · dsimp only at h
    split at h
    · cases h
    · split at h
      · cases h
        exact .inl hs
      · cases h
  · cases h
    exact .inl hs
  · -- `complete_io_on_worker`
    rename_i r' success
    obtain ⟨hstage, hw⟩ := hentry (r', .reported success) (by simp [IoFrame.entries])
    have hfits := hc.fits r'
    rw [show κ.stage r' = .reported success from hstage, ht.request] at hfits
    obtain ⟨k, hk⟩ := Option.ne_none_iff_exists'.1 hfits.2.2.1
    have hspec := completeIo_spec (e := e) (s := s.setReactor w { s.reactor w with stack := rest }) (r := r')
      (by rw [hreq, show (s.request r').worker = w from hw, hpopped]; exact htidy.pool) hk success
    rw [Option.some.inj h] at hspec
    obtain ⟨-, -, -, -, -, ⟨-, -, -, -, bytes, -, -, hrequest⟩ | ⟨-, -, hrequest⟩⟩ := hspec
    · rw [hrequest, hreq] at hs
      exact .inl (started_update (by rfl) hs)
    · rw [hrequest, hreq] at hs
      exact .inl (started_update (by rfl) hs)
  · -- `complete_request`
    rename_i r' success error
    obtain ⟨hstage, -⟩ := hentry (r', .closing success) (by simp [IoFrame.entries])
    have hfits := hc.fits r'
    rw [show κ.stage r' = .closing success from hstage, ht.request] at hfits
    obtain ⟨-, -, hrequest, -⟩ := completeRequest_spec (s := s.setReactor w { s.reactor w with stack := rest })
      (r := r') hfits.1 success error
    have heq := congrArg Prod.fst (Option.some.inj h)
    rw [show s1 = (completeRequest _ r' success error).1 from heq.symm, hrequest, hreq] at hs
    exact .inl (started_update (by rfl) hs)
  · split at h
    · cases h
      exact .inl hs
    · cases h
      exact .inl hs
  · dsimp only at h
    split at h
    · cases h
      exact .inl hs
    · cases h
      exact .inl hs
  · dsimp only at h
    split at h
    · split at h
      · cases h
        exact .inl hs
      · cases h
        exact .inl hs
    · cases h
      exact .inl hs
  · cases h

/-- **A request is started by the callback that executes it.** -/
theorem step_started (ht : Tracks s κ) (hc : Consistent e κ) {a : Action} (h : step e s a = some s')
    (hs : (s'.request r).started = true) :
    (s.request r).started = true ∨ ∃ w rest, (s.reactor w).stack = .io (.executeIo r) :: rest := by
  cases a with
  | reactor w c =>
    simp only [step] at h
    split at h
    · cases hst : (s.reactor w).stack with
      | nil =>
        left
        rw [reactorStep, hst] at h
        dsimp only at h
        unfold pickUp at h
        split at h
        case h_2 =>
          dsimp only at h
          split at h
          · cases h
          · cases h
            exact started_update (by rfl) hs
        all_goals
          try dsimp only at h
          repeat' split at h
          all_goals cases h
          all_goals exact hs
      | cons f rest =>
        rw [reactorStep, hst] at h
        obtain ⟨⟨s1, fs⟩, hrun, rfl⟩ := Option.map_eq_some_iff.1 h
        cases f with
        | io f =>
          obtain ⟨⟨s2, fs'⟩, hio, heq⟩ := Option.map_eq_some_iff.1 hrun
          cases heq
          rcases runIo_started ht hc hst hio hs with hold | rfl
          · exact .inl hold
          · exact .inr ⟨w, rest, hst⟩
        | life f =>
          have hwf : (((s.setReactor w { s.reactor w with stack := rest }).reactor w).pool).WF := by
            simpa [Sys.setReactor] using (ht.tidy.reactor w).pool
          left
          simp only [Sys.setReactor, (runLife_same hwf hrun).1] at hs
          exact hs
    · cases h
  | caller b c =>
    left
    simp only [step, callerStep] at h
    split at h
    case h_5 =>
      cases h
      simp only [Sys.setBatch, completeRequest] at hs
      split at hs
      · exact started_update (by rfl) hs
      · exact started_update (by rfl) hs
    all_goals
      try dsimp only at h
      repeat' split at h
      all_goals cases h
      all_goals exact hs
  | submit operation items memory =>
    left
    simp only [step] at h
    split at h
    · cases h
      obtain ⟨n, m, heq⟩ | ⟨-, -, -, -, -, n, m, heq⟩ := submitBatch_cases e s operation items memory
      · rw [heq] at hs
        exact hs
      · rw [heq] at hs
        simp only at hs
        split at hs
        · cases hs
        · exact hs
    · cases h
  | owner c =>
    have hsame : s'.request = s.request := by
      simp only [step] at h
      unfold ownerStep at h
      split at h
      case h_7 =>
        cases h
        exact (requestShutdown_same s _ _).2.1
      case h_8 =>
        cases h
        unfold postBeginShutdown
        split <;> rfl
      all_goals
        repeat' split at h
        all_goals cases h
        all_goals rfl
    rw [hsame] at hs
    exact .inl hs
  | transfer w k n =>
    left
    simp only [step, transfer] at h
    repeat' split at h
    all_goals cases h
    all_goals exact hs
  | disturb w k noise =>
    left
    simp only [step, disturb] at h
    repeat' split at h
    all_goals cases h
    all_goals exact hs
  | runtimeStops =>
    cases h
    exact .inl hs

/-! ## Requests not yet executed -/

/-- The caller has not posted the request. -/
def Stage.Unposted : Stage → Prop
  | .absent | .held => True
  | _ => False

theorem move_unposted (hc : Consistent e κ) (hm : Move e κ κ') (h : (κ'.stage r).Unposted) : (κ.stage r).Unposted := by
  have hturn : ∀ (r' : Ref) (t : Stage), ¬ t.Unposted → (Function.update κ.stage r' t r).Unposted →
      (κ.stage r).Unposted := by
    intro r' t ht hr
    rcases eq_or_ne r r' with rfl | hne
    · rw [Function.update_self] at hr
      exact absurd hr ht
    · rwa [Function.update_of_ne hne] at hr
  cases hm with
  | submit b op items memory pc req hnew _ _ _ _ _ =>
    by_cases hr : r.1 = b ∧ r.2 < items.length
    · have habsent : κ.stage r = .absent := by
        rw [show r = (r.1, r.2) from rfl, hc.absent_iff, hr.1, hc.idle_items b hnew]
        exact Nat.zero_le _
      rw [habsent]
      trivial
    · simpa [hr] using h
  | post rs hrs =>
    by_cases hr : r ∈ rs
    · simp [hr, Stage.Unposted] at h
    · simpa [hr] using h
  | accept r' => exact hturn r' _ id h
  | transferWrite r' => exact hturn r' _ id h
  | transferRead r' => exact hturn r' _ id h
  | disturbWrite r' => exact hturn r' _ id h
  | disturbRead r' => exact hturn r' _ id h
  | report r' => exact hturn r' _ id h
  | deliver r' => exact hturn r' _ id h
  | finish r' => exact hturn r' _ id h
  | abandon r' => exact hturn r' _ id h
  | complete r' => exact hturn r' _ id h
  | note | scribble | caller | fillPool | releasePool => exact h

theorem moves_unposted (hc : Consistent e κ) (hm : Moves e κ κ') (h : (κ'.stage r).Unposted) :
    (κ.stage r).Unposted := by
  induction hm with
  | refl => exact h
  | tail hm hlast ih => exact ih (move_unposted (moves_consistent hc hm) hlast h)

/-- A request with a stage on its worker is among its worker's entries. -/
theorem stage_entry (ht : Tracks s κ) (h : ¬ (κ.stage r).Unposted) (hdone : κ.stage r ≠ .completed) :
    (r, κ.stage r) ∈ (s.reactor (s.request r).worker).entries := by
  refine ht.ledger.complete r (.worker _) ?_
  revert h hdone
  cases κ.stage r <;> simp [Stage.Unposted, homeOf, Stage.home]

/-- The requests of a dispatch the callback has not come to. -/
def Frame.dispatched : Frame → List Ref
  | .io (.executeWorkerBatch rs) => rs
  | _ => []

/-- The requests of dispatches a reactor has not come to. -/
def Reactor.dispatched (x : Reactor) : List Ref :=
  x.queue.flatMap (fun m => m.frame.dispatched) ++ x.stack.flatMap Frame.dispatched

theorem Frame.dispatched_entry {f : Frame} (h : r ∈ f.dispatched) : (r, .queued) ∈ f.entries := by
  unfold Frame.dispatched at h
  split at h
  · exact List.mem_map.2 ⟨r, h, rfl⟩
  · cases h

/-- A request that is being executed is in no dispatch. -/
theorem executing_not_dispatched (ht : Tracks s κ) (hst : (s.reactor w).stack = .io (.executeIo r) :: rest) :
    r ∉ (s.reactor v).dispatched := by
  intro hr
  have hhead : (r, .queued) ∈ (s.reactor w).entries :=
    entries_frame (hst ▸ List.mem_cons_self) (by simp [Frame.entries, IoFrame.entries])
  have hentry : (r, .queued) ∈ (s.reactor v).entries := by
    rcases List.mem_append.1 hr with hr | hr
    · obtain ⟨m, hm, hrm⟩ := List.mem_flatMap.1 hr
      exact entries_message hm (Frame.dispatched_entry hrm)
    · obtain ⟨f, hf, hrf⟩ := List.mem_flatMap.1 hr
      exact entries_frame hf (Frame.dispatched_entry hrf)
  obtain rfl : w = v := (ht.entry hhead).2.symm.trans (ht.entry hentry).2
  -- both would be entries of its reactor
  have honce := List.nodup_iff_count_le_one.1 (List.Nodup.of_map Prod.fst (ht.ledger.once (.worker w))) (r, .queued)
  rw [shown, count_entries, hst] at honce
  simp only [List.flatMap_cons, List.count_append, Frame.entries, IoFrame.entries, List.count_singleton_self] at honce
  rcases List.mem_append.1 hr with hr | hr
  · obtain ⟨m, hm, hrm⟩ := List.mem_flatMap.1 hr
    have hpos := List.count_pos_iff.2 (List.mem_flatMap.2 ⟨m, hm, Frame.dispatched_entry hrm⟩ :
      (r, Stage.queued) ∈ (s.reactor w).queue.flatMap Msg.entries)
    omega
  · rw [hst] at hr
    obtain ⟨f, hf, hrf⟩ := List.mem_flatMap.1 hr
    rcases List.mem_cons.1 hf with rfl | hf
    · cases hrf
    · have hpos := List.count_pos_iff.2 (List.mem_flatMap.2 ⟨f, hf, Frame.dispatched_entry hrf⟩ :
        (r, Stage.queued) ∈ rest.flatMap Frame.entries)
      omega

theorem done_dispatched {f : IoFrame} {fs : List IoFrame} (h : Done w x f y fs)
    (hq : r ∈ y.queue.flatMap (fun m => m.frame.dispatched) ∨ r ∈ (fs.map Frame.io).flatMap Frame.dispatched) :
    r ∈ x.queue.flatMap (fun m => m.frame.dispatched) ∨ r ∈ (Frame.io f).dispatched := by
  cases h with
  | dispatch r' rs =>
    refine hq.imp_right fun hq => ?_
    simp only [List.map_cons, List.map_nil, List.flatMap_cons, List.flatMap_nil, Frame.dispatched, List.nil_append,
      List.append_nil] at hq
    exact List.mem_cons_of_mem _ hq
  | parked r' dma y fs hp =>
    left
    cases hp <;> simpa [Frame.dispatched, Msg.frame] using hq
  | completed r' success error fs hfs =>
    left
    rcases hfs with rfl | rfl <;> simpa [Frame.dispatched] using hq
  | _ =>
    left
    simpa [Frame.dispatched] using hq

theorem tended_dispatched {f : LifeFrame} {c : Choice} {fs : List Frame} (h : Tended w x f c y fs) :
    y.queue.flatMap (fun m => m.frame.dispatched) = x.queue.flatMap (fun m => m.frame.dispatched) ∧
    fs.flatMap Frame.dispatched = [] := by
  have hlife : ∀ fs : List LifeFrame, (fs.map Frame.life).flatMap Frame.dispatched = [] := by
    intro fs
    simp [Frame.dispatched, List.flatMap_map]
  cases h with
  | quiet f fs => exact ⟨rfl, hlife fs⟩
  | posted f fs hfs m g hm => exact ⟨by simp [hm, Frame.dispatched], hlife fs⟩
  | released fs => exact ⟨rfl, hlife fs⟩
  | _ => exact ⟨rfl, rfl⟩

/-- What a step adds to the dispatches of a reactor was its caller's. -/
theorem acted_dispatched {a : Action} (h : Acted s v a y) (hr : r ∈ y.dispatched) :
    r ∈ (s.reactor v).dispatched ∨
    ∃ b d todo, (s.batch b).caller = .sending d todo ∧ r ∈ d.requests := by
  unfold Reactor.dispatched at hr ⊢
  cases h with
  | same => exact .inl hr
  | dispatch b c d todo hpc =>
    simp only [List.flatMap_append, List.flatMap_cons, List.flatMap_nil, List.append_nil, Msg.frame, Frame.dispatched,
      List.mem_append] at hr ⊢
    rcases hr with (hr | hr) | hr
    · exact .inl (.inl hr)
    · exact .inr ⟨b, d, todo, hpc, hr⟩
    · exact .inl (.inr hr)
  | posted a m g hm =>
    left
    simpa [hm, Frame.dispatched] using hr
  | message m rest hidle hq =>
    left
    simpa [hq, hidle] using Or.symm (by simpa using hr)
  | completion | ioWait | event =>
    left
    simp only [List.flatMap_cons, List.flatMap_nil, Frame.dispatched, List.append_nil] at hr
    exact List.mem_append_left _ hr
  | io c f rest y fs hst hdone =>
    left
    simp only [List.flatMap_append, List.mem_append] at hr ⊢
    rw [hst, List.flatMap_cons, List.mem_append]
    rcases hr with hr | hr | hr
    · exact (done_dispatched hdone (.inl hr)).imp_right .inl
    · exact (done_dispatched hdone (.inr hr)).imp_right .inl
    · exact .inr (.inr hr)
  | life c f rest y fs hst htended =>
    left
    obtain ⟨h1, h2⟩ := tended_dispatched htended
    rw [h1, List.flatMap_append, h2, List.nil_append] at hr
    rw [hst]
    exact hr
  | reached u c f rest y hu hst hreached =>
    left
    cases hreached with
    | posted f m g hm => simpa [hm, Frame.dispatched] using hr
    | _ => exact hr
  | moved => exact .inl hr

/-- The requests not yet executed. -/
structure Unstarted (s : Sys) (κ : Core) : Prop where
  unposted : ∀ r, (κ.stage r).Unposted → (s.request r).started = false
  dispatched : ∀ w, ∀ r ∈ (s.reactor w).dispatched, (s.request r).started = false

theorem step_unstarted (ht : Tracks s κ) (hc : Consistent e κ) (hm : Moves e κ κ') {a : Action}
    (h : Unstarted s κ) (hs : step e s a = some s') : Unstarted s' κ' := by
  -- a request that has become started was being executed
  have hkeep : ∀ r, (s.request r).started = false → (∀ w rest, (s.reactor w).stack ≠ .io (.executeIo r) :: rest) →
      (s'.request r).started = false := by
    intro r hr hnot
    by_contra hstarted
    rcases step_started ht hc hs (by simpa using hstarted) with hold | ⟨w, rest, hst⟩
    · rw [hr] at hold
      cases hold
    · exact hnot w rest hst
  have hheld : ∀ r, (κ.stage r).Unposted → (s'.request r).started = false := by
    intro r hr
    refine hkeep r (h.unposted r hr) fun w rest hst => ?_
    obtain ⟨hstage, -⟩ := ht.entry (y := (r, .queued)) (entries_frame (hst ▸ List.mem_cons_self)
      (by simp [Frame.entries, IoFrame.entries]))
    rw [hstage] at hr
    exact hr
  refine ⟨fun r hr => hheld r (moves_unposted hc hm hr), fun w r hr => ?_⟩
  rcases acted_dispatched (step_acted ht hc hs w) hr with hold | ⟨b, d, todo, hpc, hr⟩
  · exact hkeep r (h.dispatched w r hold) fun v rest hst => executing_not_dispatched ht hst hold
  · refine hheld r ?_
    rw [(ht.held (b := b) (r := r) (by rw [hpc]; exact List.mem_append_left _ hr)).1]
    trivial

theorem init_unstarted (device : Nat → UInt8) : Unstarted (Sys.init device) (Core.init device) where
  unposted _ _ := rfl
  dispatched _ _ _ := rfl

end SpdkBdevContext
end SpdkConnector
