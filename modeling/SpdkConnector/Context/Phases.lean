import SpdkConnector.Context.Calm
import SpdkConnector.Context.Reactors

/-!
# Setting up before tearing down

A worker is set up by a call that its reactor reaches before those that tear it down: messages are delivered
in order, and the loop that posts the initialisations has ended when the teardown begins. So a worker that
has run `shutdown_io_worker` is not set up again (`retired_step`).
-/

namespace SpdkConnector
namespace SpdkBdevContext

open Interleaving

variable {e : Env} {s s' : Sys} {κ κ' : Cycle} {w v : Nat} {f g : LifeFrame} {rest : List LifeFrame} {x : Effect}

/-- A call that may still post initialisations. -/
def LifeFrame.Spreading : LifeFrame → Prop
  | .onRuntimeReady | .configure | .postSetUp _ => True
  | _ => False

/-- A call that sets a worker up, or leads to one. -/
def LifeFrame.SettingUp (f : LifeFrame) : Prop := f.Spreading ∨ f = .initializeIoWorker

/-- A call of the teardown of a worker, or the one that begins it. -/
def LifeFrame.Ending (f : LifeFrame) : Prop := f.Tearing ∨ f = .beginShutdown

structure Ordered (κ : Cycle) : Prop where
  order : ∀ v, (κ.agenda v).Pairwise fun f g => f.Ending → ¬ g.SettingUp
  zero : ∀ v, ∀ g ∈ κ.agenda v, g.Spreading ∨ g = .beginShutdown → v = 0
  index : ∀ v i, .postSetUp i ∈ κ.agenda v → 1 ≤ i
  started : κ.ctx.shutdownStarted = true → ∀ v, ∀ g ∈ κ.agenda v, ¬ g.Spreading
  calm : κ.Calm

theorem LifeFrame.Spreading.not_ending (h : f.Spreading) : ¬ f.Ending := by
  cases f <;> simp_all [LifeFrame.Spreading, LifeFrame.Ending, LifeFrame.Tearing]

section
variable {c : Members} {ch : Choice} {available : Bool}

/-- What a call leads to. -/
theorem lived_phase (hl : Lived e available c w f ch x) :
    (∀ g ∈ x.calls, (g.SettingUp → f.Spreading) ∧ (g.Ending → f.Ending) ∧ g ≠ .beginShutdown) ∧
    (∀ i, .postSetUp i ∈ x.calls → (∃ j, f = .postSetUp j ∧ i = j + 1) ∨ f = .configure ∧ i = 1) ∧
    ∀ u g, x.post = some (u, g) → ¬ g.Spreading ∧ (g = .beginShutdown → u = 0) ∧
      (g = .initializeIoWorker → f = .postSetUp u) := by
  cases hl with
  | initializedLast error lastError =>
    cases lastError == "" <;>
      simp [LifeFrame.SettingUp, LifeFrame.Spreading, LifeFrame.Ending, LifeFrame.Tearing]
  | requested rc error lastError code start =>
    cases start <;> simp [LifeFrame.SettingUp, LifeFrame.Spreading, LifeFrame.Ending, LifeFrame.Tearing]
  | begun | released | acknowledged =>
    dsimp only
    split <;> simp [LifeFrame.SettingUp, LifeFrame.Spreading, LifeFrame.Ending, LifeFrame.Tearing]
  | _ => simp +contextual [LifeFrame.SettingUp, LifeFrame.Spreading, LifeFrame.Ending, LifeFrame.Tearing, eq_comm]

end

theorem put_agenda (κ : Cycle) (w : Nat) (a : List LifeFrame) (v : Nat) :
    (κ.put w a).agenda v = Function.update κ.agenda w a v := rfl

/-- A call is put first. -/
theorem mem_first : g ∈ (κ.put w (f :: κ.agenda w)).agenda v ↔ v = w ∧ g = f ∨ g ∈ κ.agenda v := by
  rw [put_agenda]
  rcases eq_or_ne v w with rfl | hv
  · simp
  · simp [hv]

/-- The agendas after a call. -/
theorem run_agenda (κ : Cycle) (w : Nat) (rest : List LifeFrame) (x : Effect) (v : Nat) :
    (κ.run w rest x).agenda v = (if v = w then x.calls ++ rest else κ.agenda v) ++
      x.post.elim [] fun p => if v = p.1 then [p.2] else [] := by
  have hput : (κ.put w (x.calls ++ rest)).agenda v = if v = w then x.calls ++ rest else κ.agenda v := by
    rw [put_agenda, Function.update_apply]
  cases hx : x.post with
  | none => simp only [Cycle.run, hx, Cycle.post, Option.elim_none, List.append_nil, hput]
  | some p =>
    simp only [Cycle.run, hx, Cycle.post, Option.elim_some]
    rw [← hput]
    rcases eq_or_ne v p.1 with rfl | hv
    · simp [Cycle.put]
    · simp [Cycle.put, hv]

/-- A call keeps the order. -/
theorem Ordered.run (h : Ordered κ) {c : Choice} {available : Bool} (hag : κ.agenda w = f :: rest)
    (hl : Lived e available κ.ctx w f c x) (hcalm : (κ.run w rest x).Calm) : Ordered (κ.run w rest x) := by
  obtain ⟨hcalls, hindex, hpost⟩ := lived_phase hl
  have hf : f ∈ κ.agenda w := hag ▸ List.mem_cons_self
  have hrest : ∀ g ∈ rest, g ∈ κ.agenda w := fun g hg => hag ▸ List.mem_cons_of_mem _ hg
  have hpair := h.order w
  rw [hag, List.pairwise_cons] at hpair
  -- until the teardown has started no agenda but that of the application thread has a call of it
  have hquiet : f.Spreading → ∀ v ≠ 0, ∀ g ∈ κ.agenda v, ¬ g.Ending := by
    intro hs v hv g hg hend
    have hstarted : κ.ctx.shutdownStarted = false := by
      by_contra hstarted
      exact h.started (by simpa using hstarted) w f hf hs
    rcases hend with htear | rfl
    · exact h.calm hstarted v g hg htear
    · exact hv (h.zero v _ hg (.inr rfl))
  refine ⟨fun v => ?_, fun v g hg hg' => ?_, fun v i hi => ?_, fun hs v g hg hspread => ?_, hcalm⟩
  · rw [run_agenda]
    have hbase : List.Pairwise (fun f g => LifeFrame.Ending f → ¬ g.SettingUp)
        (if v = w then x.calls ++ rest else κ.agenda v) := by
      split
      · refine List.pairwise_append.2 ⟨?_, hpair.2, fun a ha b hb hend => hpair.1 b hb ((hcalls a ha).2.1 hend)⟩
        refine List.pairwise_of_forall_mem_list fun a ha b hb hend hset => ?_
        exact ((hcalls b hb).1 hset).not_ending ((hcalls a ha).2.1 hend)
      · exact h.order v
    cases hx : x.post with
    | none => simpa using hbase
    | some p =>
      obtain ⟨u, g⟩ := p
      obtain ⟨hspread, -, hinit⟩ := hpost u g hx
      rw [Option.elim_some]
      rcases eq_or_ne v u with rfl | hv
      · rw [if_pos rfl]
        refine List.pairwise_append.2 ⟨hbase, List.pairwise_singleton _ _, fun a ha b hb hend hset => ?_⟩
        obtain rfl := List.mem_singleton.1 hb
        obtain rfl := hinit (hset.resolve_left hspread)
        -- an initialisation is posted to another reactor, where no teardown is due
        have hv : v ≠ 0 := by
          have := h.index w v hf
          omega
        have hold : a ∈ κ.agenda v := by
          split at ha
          · rename_i hvw
            obtain rfl := hvw
            exact absurd (h.zero v _ hf (.inl trivial)) hv
          · exact ha
        exact hquiet trivial v hv a hold hend
      · rwa [if_neg hv, List.append_nil]
  · rcases mem_run hag hg with hold | ⟨rfl, hcall⟩ | hposted
    · exact h.zero v g hold hg'
    · obtain ⟨h1, -, h3⟩ := hcalls g hcall
      exact h.zero v f hf (.inl (h1 (.inl (hg'.resolve_right h3))))
    · obtain ⟨h1, h2, -⟩ := hpost v g hposted
      exact h2 (hg'.resolve_left h1)
  · rcases mem_run hag hi with hold | ⟨rfl, hcall⟩ | hposted
    · exact h.index v i hold
    · rcases hindex i hcall with ⟨j, -, rfl⟩ | ⟨-, rfl⟩
      · exact Nat.succ_pos j
      · exact Nat.le_refl 1
    · exact absurd trivial (hpost v _ hposted).1
  · have hnone : f.Spreading → False := by
      intro hspread'
      have hnot : κ.ctx.shutdownStarted ≠ true := fun hst => h.started hst w f hf hspread'
      revert hs
      show ¬ x.ctx.shutdownStarted = true
      cases hl with
      | begun => exact hspread'.elim
      | _ => simpa using hnot
    rcases mem_run hag hg with hold | ⟨rfl, hcall⟩ | hposted
    · by_cases hstarted : κ.ctx.shutdownStarted = true
      · exact h.started hstarted v g hold hspread
      · -- the teardown starts in this call
        have hbegin : f = .beginShutdown := by
          have hs' : x.ctx.shutdownStarted = true := hs
          cases hl with
          | begun => rfl
          | _ => exact absurd hs' hstarted
        obtain rfl := h.zero v g hold (.inl hspread)
        obtain rfl := h.zero w f hf (.inr hbegin)
        rw [hag] at hold
        rcases List.mem_cons.1 hold with rfl | hold
        · exact hnone hspread
        · exact hpair.1 g hold (.inr hbegin) (.inl hspread)
    · exact hnone ((hcalls g hcall).1 (.inl hspread))
    · exact (hpost v g hposted).1 hspread

theorem Ordered.turn {a : Action} (h : Ordered s.cycle) (ht : Turn e s a κ') : Ordered κ' := by
  have hcalm := (turn_calm h.calm ht).2
  -- steps that change no agenda
  have hsame : ∀ κ : Cycle, κ.agenda = s.cycle.agenda → κ.ctx.shutdownStarted = s.ctx.shutdownStarted → Ordered κ := by
    intro κ hag hs
    refine ⟨hag ▸ h.order, hag ▸ h.zero, hag ▸ h.index, fun hst => ?_, fun hst => ?_⟩
    · rw [hag]
      exact h.started (hs.symm.trans hst)
    · rw [hag]
      exact h.calm (hs.symm.trans hst)
  cases ht with
  | idle => exact h
  | counted => exact hsame _ rfl rfl
  | stops => exact hsame _ rfl rfl
  | run w c f stack rest x hst hag hl => exact h.run hag hl hcalm
  | event c rc error hd hposted =>
    have hmem : ∀ v, ∀ g ∈ (s.cycle.put 0 (.requestShutdown rc error :: s.cycle.agenda 0)).agenda v,
        g = .requestShutdown rc error ∨ g ∈ s.cycle.agenda v :=
      fun v g hg => (mem_first.1 hg).imp_left And.right
    refine ⟨fun v => ?_, fun v g hg hg' => ?_, fun v i hi => ?_, fun hs v g hg => ?_, hcalm⟩
    · rcases eq_or_ne v 0 with rfl | hv
      · rw [put_agenda, Function.update_self, List.pairwise_cons]
        refine ⟨fun g _ hend => ?_, h.order 0⟩
        simp [LifeFrame.Ending, LifeFrame.Tearing] at hend
      · simpa [Cycle.put, hv] using h.order v
    · rcases hmem v g hg with rfl | hold
      · simp [LifeFrame.Spreading] at hg'
      · exact h.zero v g hold hg'
    · rcases hmem v _ hi with hi | hold
      · cases hi
      · exact h.index v i hold
    · rcases hmem v g hg with rfl | hold
      · exact id
      · exact h.started hs v g hold
  | owner c κ ho =>
    cases ho with
    | beginPosted =>
      have hmem : ∀ v, ∀ g ∈ (s.cycle.put 0 (s.cycle.agenda 0 ++ [.beginShutdown])).agenda v,
          g ∈ s.cycle.agenda v ∨ v = 0 ∧ g = .beginShutdown := by
        intro v g hg
        rcases eq_or_ne v 0 with rfl | hv
        · simpa [Cycle.put] using hg
        · exact .inl (by simpa [Cycle.put, hv] using hg)
      refine ⟨fun v => ?_, fun v g hg hg' => ?_, fun v i hi => ?_, fun hs v g hg => ?_, hcalm⟩
      · show List.Pairwise _ ((s.cycle.put 0 (s.cycle.agenda 0 ++ [.beginShutdown])).agenda v)
        rcases eq_or_ne v 0 with rfl | hv
        · rw [put_agenda, Function.update_self, List.pairwise_append]
          refine ⟨h.order 0, List.pairwise_singleton _ _, fun a _ b hb _ => ?_⟩
          obtain rfl := List.mem_singleton.1 hb
          simp [LifeFrame.SettingUp, LifeFrame.Spreading]
        · simpa [Cycle.put, hv] using h.order v
      · rcases hmem v g hg with hold | ⟨rfl, -⟩
        · exact h.zero v g hold hg'
        · rfl
      · rcases hmem v _ hi with hold | ⟨-, hi⟩
        · exact h.index v i hold
        · cases hi
      · rcases hmem v g hg with hold | ⟨-, rfl⟩
        · exact h.started hs v g hold
        · exact id
    | _ => exact hsame _ rfl rfl

theorem init_ordered (device : Nat → UInt8) : Ordered (Sys.init device).cycle := by
  have hag : ∀ v, (Sys.init device).cycle.agenda v = if v = 0 then [.onRuntimeReady] else [] := by
    intro v
    rcases eq_or_ne v 0 with rfl | hv
    · rfl
    · simp [Sys.cycle, Sys.init, Reactor.agenda, hv]
  refine ⟨fun v => ?_, fun v g hg _ => ?_, fun v i hi => ?_, by rintro ⟨⟩, init_calm device⟩
  · rw [hag]
    split
    · exact List.pairwise_singleton _ _
    · exact List.Pairwise.nil
  · rw [hag] at hg
    split at hg
    · assumption
    · cases hg
  · rw [hag] at hi
    split at hi
    · simp at hi
    · cases hi

/-! ## Workers that have been torn down -/

/-- A call that sets a worker up was there, or something may still post one. -/
theorem turn_settingUp {a : Action} (ht : Turn e s a κ') (hg : g ∈ κ'.agenda v) (hset : g.SettingUp) :
    g ∈ s.cycle.agenda v ∨ ∃ w f, f ∈ s.cycle.agenda w ∧ f.Spreading := by
  cases ht with
  | idle | counted | stops => exact .inl hg
  | run w c f stack rest x hst hag hl =>
    obtain ⟨hcalls, -, hpost⟩ := lived_phase hl
    have hf : f ∈ s.cycle.agenda w := hag ▸ List.mem_cons_self
    rcases mem_run hag hg with hold | ⟨-, hcall⟩ | hposted
    · exact .inl hold
    · exact .inr ⟨w, f, hf, (hcalls g hcall).1 hset⟩
    · obtain ⟨h1, -, h3⟩ := hpost v g hposted
      refine .inr ⟨w, f, hf, ?_⟩
      rw [h3 (hset.resolve_left h1)]
      trivial
  | event c rc error =>
    left
    rw [put_agenda, Function.update_apply] at hg
    split at hg
    · rename_i hv
      subst hv
      refine (List.mem_cons.1 hg).resolve_left ?_
      rintro rfl
      simp [LifeFrame.SettingUp, LifeFrame.Spreading] at hset
    · exact hg
  | owner c κ ho =>
    left
    cases ho with
    | beginPosted =>
      rw [show _ = Function.update s.cycle.agenda 0 _ v from put_agenda s.cycle 0 _ v, Function.update_apply] at hg
      split at hg
      · rename_i hv
        subst hv
        refine (List.mem_append.1 hg).resolve_right fun hg => ?_
        obtain rfl := List.mem_singleton.1 hg
        simp [LifeFrame.SettingUp, LifeFrame.Spreading] at hset
      · exact hg
    | _ => exact hg

theorem acted_shutDown {a : Action} {y : Reactor} (h : Acted s v a y) (hy : y.shutDown = true) :
    (s.reactor v).shutDown = true ∨
    ∃ c rest, a = .reactor v c ∧ (s.reactor v).stack = .life .releaseIoWorker :: rest := by
  cases h with
  | io c f rest y fs hst hdone =>
    left
    cases hdone with
    | parked r dma y fs hp => cases hp <;> exact hy
    | _ => exact hy
  | life c f rest y fs hst ht =>
    cases ht with
    | released => exact .inr ⟨c, rest, rfl, hst⟩
    | _ => exact .inl hy
  | reached u c f rest y hu hst hr => cases hr <;> exact .inl hy
  | _ => exact .inl hy

/-- A worker that has run `shutdown_io_worker` is not set up again. -/
def Retired (s : Sys) : Prop :=
  ∀ v, (s.reactor v).shutDown = true → s.ctx.shutdownStarted = true ∧ ∀ g ∈ s.cycle.agenda v, ¬ g.SettingUp

theorem retired_step {κ : Core} (ht : Tracks s κ) (hc : Consistent e κ) (ho : Ordered s.cycle) (h : Retired s)
    {a : Action} (hs : step e s a = some s') : Retired s' := by
  intro v hv
  have hturn := step_turn hs
  have hstarted : s.ctx.shutdownStarted = true → s'.ctx.shutdownStarted = true := by
    intro hst
    by_contra hno
    exact nomatch hst.symm.trans ((turn_calm ho.calm hturn).1 (by simpa [Sys.cycle] using hno))
  have hold : s.ctx.shutdownStarted = true ∧ ∀ g ∈ s.cycle.agenda v, ¬ g.SettingUp := by
    rcases acted_shutDown (step_acted ht hc hs v) hv with hv | ⟨c, rest, rfl, hst⟩
    · exact h v hv
    · -- the call that releases the worker is behind those that set it up
      have hag : s.cycle.agenda v = .releaseIoWorker ::
          (rest.filterMap Frame.life? ++ (s.reactor v).queue.filterMap fun m => m.frame.life?) := by
        simp [Sys.cycle, Reactor.agenda, hst, Frame.life?]
      have hmem : LifeFrame.releaseIoWorker ∈ s.cycle.agenda v := hag ▸ List.mem_cons_self
      have hpair := ho.order v
      rw [hag, List.pairwise_cons] at hpair
      refine ⟨?_, fun g hg hset => ?_⟩
      · by_contra hno
        exact ho.calm (by simpa [Sys.cycle] using hno) v _ hmem trivial
      · rw [hag] at hg
        rcases List.mem_cons.1 hg with rfl | hg
        · simp [LifeFrame.SettingUp, LifeFrame.Spreading] at hset
        · exact hpair.1 g hg (.inl trivial) hset
  refine ⟨hstarted hold.1, fun g hg hset => ?_⟩
  rcases turn_settingUp hturn hg hset with hg | ⟨w, f, hf, hspread⟩
  · exact hold.2 g hg hset
  · exact ho.started hold.1 w f hf hspread

end SpdkBdevContext
end SpdkConnector
