import SpdkConnector.Runtime.Registry
import SpdkConnector.Runtime.Ownership

/-!
# The runtime outlives its contexts

While a context has the runtime, or a thread a copy of its `shared_ptr`, the object is there and its destructor has not
begun. The application may end before: a worker that cannot post its acknowledgement calls `spdk_app_stop`
(`application_stopped`). Where none does, the application runs, nobody has asked it to stop, and the availability
checks in the contexts are never what fails (`runtime_outlives`).

| here | meaning |
| --- | --- |
| `Runtime.Steady` | what the fields of the object say about each other |
| `Runtime.Up` | it runs, and nobody has asked it to stop |
| `Shared` | what the references say about the object; `shared_step` keeps it |
| `Unasked` | nobody has called `spdk_app_stop`; `unasked_step` keeps it |
-/

namespace SpdkConnector
namespace SpdkRuntime

open Interleaving SpdkBdevContext

variable {strerror : Nat → String} {p p' : Registry} {r r' : Runtime} {w w' : World} {i j : Nat} {t : Actor}
  {hs : List Holder} {s : Sys}

/-! ## The contexts -/

/-- The context has the runtime: `runtime_` is not null. -/
def Context.Shares (x : Context) : Prop :=
  match x.phase with
  | .claiming | .sending | .abandoning _ => True
  | .live s _ => s.ctx.runtime = true
  | _ => False

/-- What the contexts see of `is_available()`. -/
def World.Told (w : World) : Prop :=
  ∀ i s releasing, (w.context i).phase = .live s releasing → s.runtimeAvailable = w.available

theorem World.Told.setContext (h : w.Told) {y : Context}
    (hy : ∀ s releasing, y.phase = .live s releasing → s.runtimeAvailable = w.available) : (w.setContext i y).Told := by
  intro j s releasing hj
  rw [setContext_context] at hj
  split at hj
  · exact hy s releasing hj
  · exact h j s releasing hj

/-- A context gives up its `runtime_` at the end of `close()`. -/
def movesOut (s : Sys) (a : Action) : Prop := a = .owner .next ∧ s.owner = .releasing

theorem ownerStep_runtime {env : Env} {s' : Sys} {c : SpdkBdevContext.Choice} (h : ownerStep env s c = some s') :
    s'.runtimeAvailable = s.runtimeAvailable ∧ (s.owner = .releasing → s'.ctx.runtime = false) ∧
    (s.owner ≠ .releasing → s'.ctx.runtime = s.ctx.runtime) := by
  have hcycle : s'.cycle.runtimeAvailable = s'.runtimeAvailable ∧ s'.cycle.ctx = s'.ctx := ⟨rfl, rfl⟩
  have howned := ownerStep_owned h
  rw [← hcycle.1, ← hcycle.2]
  generalize s'.cycle = κ at howned
  cases howned with
  | claimReleased hpc => exact ⟨rfl, fun _ => rfl, fun hno => absurd hpc hno⟩
  | checked hpc | wokenInitialization hpc | wokenShutdown hpc | closedAlready hpc | marked hpc | nothingOpen hpc
  | requested hpc | waited hpc | beginPosted hpc | beginFailed hpc =>
    exact ⟨rfl, fun hm => absurd (hpc.symm.trans hm) (by simp), fun _ => rfl⟩
  | close hpc =>
    refine ⟨rfl, fun hm => ?_, fun _ => rfl⟩
    rcases hpc with hpc | hpc <;> exact absurd (hpc.symm.trans hm) (by simp)

theorem step_runtime {env : Env} {s' : Sys} {a : Action} (h : step env s a = some s') (hown : ∀ c, a ≠ .owner c)
    (hstops : a ≠ .runtimeStops) : s'.runtimeAvailable = s.runtimeAvailable ∧ s'.ctx.runtime = s.ctx.runtime := by
  have hcycle : s'.cycle.runtimeAvailable = s'.runtimeAvailable ∧ s'.cycle.ctx = s'.ctx := ⟨rfl, rfl⟩
  have hturn := step_turn h
  rw [← hcycle.1, ← hcycle.2]
  generalize s'.cycle = κ at hturn
  cases hturn with
  | stops => exact absurd rfl hstops
  | owner c => exact absurd rfl (hown c)
  | run v c f stack rest y hst hag hl =>
    obtain ⟨-, -, -, -, -, hruntime, -⟩ := lived_shut hl
    refine ⟨?_, hruntime⟩
    simp only [Cycle.run]
    cases y.post <;> rfl
  | _ => exact ⟨rfl, rfl⟩

/-- What a step of a live context does to what it has of the runtime. -/
theorem liveStep_runtime {env : Env} {releasing : Bool} {a : Action} {x : Sys × Bool}
    (h : liveStep env s releasing a = some x) : x.1.runtimeAvailable = s.runtimeAvailable ∧
    (movesOut s a → x.1.ctx.runtime = false) ∧ (¬ movesOut s a → x.1.ctx.runtime = s.ctx.runtime) := by
  have hother : ∀ a, (∀ c, a ≠ .owner c) → a ≠ .runtimeStops →
      ((step env s a).map fun s' => (s', releasing)) = some x →
      x.1.runtimeAvailable = s.runtimeAvailable ∧
      (movesOut s a → x.1.ctx.runtime = false) ∧ (¬ movesOut s a → x.1.ctx.runtime = s.ctx.runtime) := by
    intro a hown hstops hs
    obtain ⟨s', hstep, rfl⟩ := Option.map_eq_some_iff.1 hs
    obtain ⟨h1, h2⟩ := step_runtime hstep hown hstops
    exact ⟨h1, fun hm => absurd hm.1 (hown _), fun _ => h2⟩
  cases a with
  | runtimeStops => cases h
  | owner c =>
    simp only [liveStep] at h
    split at h
    · cases h
    · obtain ⟨s', hs, rfl⟩ := Option.map_eq_some_iff.1 h
      obtain ⟨h1, h2, h3⟩ := ownerStep_runtime hs
      refine ⟨h1, fun hm => h2 hm.2, fun hm => ?_⟩
      by_cases hpc : s.owner = .releasing
      · -- at the end of `close()` there is one step
        have hnext : c = .next := by
          cases c <;> simp_all [ownerStep]
        exact absurd ⟨congrArg _ hnext, hpc⟩ hm
      · exact h3 hpc
  | reactor v c => exact hother (.reactor v c) (by simp) (by simp) h
  | caller b c => exact hother (.caller b c) (by simp) (by simp) h
  | submit operation items memory => exact hother (.submit operation items memory) (by simp) (by simp) h
  | transfer v k n => exact hother (.transfer v k n) (by simp) (by simp) h
  | disturb v k noise => exact hother (.disturb v k noise) (by simp) (by simp) h

/-- The context a step is about. -/
def WorldAction.index : WorldAction → Nat
  | .construct i _ _ | .claim i | .send i _ _ | .abandon i | .context i _ | .release i => i
  | .runtimeStops => 0

/-- What a step does to its context. -/
inductive Became (available : Bool) (x : Context) : WorldAction → Context → Prop
  | constructed (i : Nat) (env : Env) (error : Option String) (hx : x.phase = .absent) :
      Became available x (.construct i env error) { env, phase := error.elim .claiming .failed }
  | refused (i : Nat) (error : String) (hx : x.phase = .claiming) :
      Became available x (.claim i) { x with phase := .failed error }
  | claimed (i : Nat) (hx : x.phase = .claiming) :
      Became available x (.claim i) { x with phase := .sending, claims := x.claims + 1 }
  | unsent (i : Nat) (rc : Int) (device : Nat → UInt8) (error : String) (hx : x.phase = .sending) :
      Became available x (.send i rc device) { x with phase := .abandoning error }
  | sent (i : Nat) (device : Nat → UInt8) (hx : x.phase = .sending) (ha : available = true) :
      Became available x (.send i 0 device) { x with phase := .live (Sys.init device) false }
  | abandoned (i : Nat) (error : String) (hx : x.phase = .abandoning error) :
      Became available x (.abandon i) { x with phase := .failed error, releases := x.releases + 1 }
  | stepped (i : Nat) (a : Action) (s : Sys) (releasing : Bool) (y : Sys × Bool) (hx : x.phase = .live s releasing)
      (h : liveStep x.env s releasing a = some y) :
      Became available x (.context i a) { x with phase := .live y.1 y.2 }
  | released (i : Nat) (s : Sys) (hx : x.phase = .live s true) :
      Became available x (.release i) { x with phase := .live s false, releases := x.releases + 1 }

theorem worldStep_became {a : WorldAction} (h : worldStep w a = some w') (hstops : a ≠ .runtimeStops) :
    ∃ y claimed, Became w.available (w.context a.index) a y ∧
      w' = { w.setContext a.index y with claimedBdevs := claimed } := by
  cases a with
  | runtimeStops => exact absurd rfl hstops
  | construct i env error =>
    simp only [worldStep] at h
    split at h
    · rename_i hphase
      cases h
      exact ⟨_, _, .constructed i env error hphase, rfl⟩
    · cases h
  | claim i =>
    simp only [worldStep] at h
    split at h
    · rename_i hphase
      split at h
      · cases h
        exact ⟨_, _, .refused i _ hphase, rfl⟩
      · cases h
        exact ⟨_, _, .claimed i hphase, rfl⟩
    · cases h
  | send i rc device =>
    simp only [worldStep] at h
    split at h
    · rename_i hphase
      cases h
      refine ⟨_, _, ?_, rfl⟩
      show Became _ (w.context i) _ _
      by_cases ha : w.available = true
      · by_cases hrc : rc = 0
        · subst hrc
          simpa [ha] using Became.sent (x := w.context i) i device hphase ha
        · simpa [ha, hrc] using Became.unsent (x := w.context i) i rc device _ hphase
      · simpa [ha] using Became.unsent (x := w.context i) i rc device _ hphase
    · cases h
  | abandon i =>
    simp only [worldStep] at h
    split at h
    · rename_i error hphase
      cases h
      exact ⟨_, _, .abandoned i error hphase, rfl⟩
    · cases h
  | context i a =>
    simp only [worldStep] at h
    split at h
    · rename_i s releasing hphase
      obtain ⟨x, hx, rfl⟩ := Option.map_eq_some_iff.1 h
      exact ⟨_, _, .stepped i a s releasing x hphase hx, rfl⟩
    · cases h
  | release i =>
    simp only [worldStep] at h
    split at h
    · rename_i s hphase
      cases h
      exact ⟨_, _, .released i s hphase, rfl⟩
    · cases h

/-- A step of the contexts, but for the end of the runtime. -/
theorem worldStep_told {a : WorldAction} (h : worldStep w a = some w') (hstops : a ≠ .runtimeStops) (ht : w.Told) :
    w'.available = w.available ∧ w'.Told := by
  obtain ⟨y, claimed, hb, rfl⟩ := worldStep_became h hstops
  refine ⟨rfl, ht.setContext (y := y) fun s releasing hs => ?_⟩
  cases hb with
  | sent i device hx ha =>
    cases hs
    exact ha.symm
  | stepped i a s0 releasing0 x hx hl =>
    cases hs
    exact (liveStep_runtime hl).1.trans (ht _ _ _ hx)
  | released i s0 hx =>
    cases hs
    exact ht _ _ _ hx
  | constructed i env error => cases error <;> cases hs
  | _ => cases hs

/-! ## References -/

theorem starts_runtime {rc : Int} {error : String} (h : (requestShutdown s rc error).2 = true) :
    s.ctx.runtime = true := by
  obtain ⟨lastError, code, start, hstart, heq⟩ := requestShutdown_eq s rc error
  rw [heq] at h
  dsimp only at h
  simp_all

/-- The thread of a step is not yet past the place where it takes a copy. -/
def Borrows (s : Sys) (a : Action) (t : Actor) : Prop :=
  actorOf a = some t ∧ s.ctx.runtime = true ∧ ∀ releasing, inUse s releasing t = (t == .owner && releasing)

theorem references_cases (hs : List Holder) (i : Nat) (s : Sys) (a : Action) :
    references hs i s a = hs ∧ ¬ (movesOut s a ∧ s.ctx.runtime = true) ∨
    (∃ t, Borrows s a t ∧ ¬ movesOut s a ∧ references hs i s a = .copy i t :: hs) ∨
    movesOut s a ∧ Borrows s a .owner ∧ references hs i s a = .copy i .owner :: hs.erase (.member i) := by
  unfold references
  split
  · rename_i v
    split
    · rename_i rc error hhead
      split
      · rename_i hstart
        refine .inr (.inl ⟨.reactor v, ⟨rfl, starts_runtime hstart, fun releasing => ?_⟩, by simp [movesOut], rfl⟩)
        simp only [inUse, hhead]
        rfl
      · exact .inl ⟨rfl, by simp [movesOut]⟩
    · exact .inl ⟨rfl, by simp [movesOut]⟩
  · rename_i b
    split
    · rename_i d todo hpc
      split
      · exact .inl ⟨rfl, by simp [movesOut]⟩
      · rename_i hopen
        refine .inr (.inl ⟨.caller b, ⟨rfl, by simp_all, fun releasing => by simp [inUse, hpc]⟩, by simp [movesOut], rfl⟩)
    · exact .inl ⟨rfl, by simp [movesOut]⟩
  · split
    · rename_i hpc
      split
      · rename_i hstart
        exact .inr (.inl ⟨.owner, ⟨rfl, starts_runtime hstart, fun releasing => by simp [inUse, hpc]⟩,
          by simp [movesOut, hpc], rfl⟩)
      · exact .inl ⟨rfl, by simp [movesOut, hpc]⟩
    · rename_i hpc
      split
      · rename_i hruntime
        exact .inr (.inr ⟨⟨rfl, hpc⟩, ⟨rfl, hruntime, fun releasing => by simp [inUse, hpc]⟩, rfl⟩)
      · rename_i hruntime
        exact .inl ⟨rfl, fun h => hruntime h.2⟩
    · rename_i h1 h2
      exact .inl ⟨rfl, fun h => h2 h.1.2⟩
  · rename_i h1 h2 h3
    exact .inl ⟨rfl, fun h => h3 h.1.1⟩

theorem references_unshared (hno : s.ctx.runtime = false) (hs : List Holder) (i : Nat) (a : Action) :
    references hs i s a = hs := by
  rcases references_cases hs i s a with ⟨h, -⟩ | ⟨t, ⟨-, hruntime, -⟩, -⟩ | ⟨-, ⟨-, hruntime, -⟩, -⟩
  · exact h
  · exact absurd (hruntime.symm.trans hno) (by simp)
  · exact absurd (hruntime.symm.trans hno) (by simp)

theorem references_nodup {a : Action} (h : hs.Nodup) (hfree : ∀ t, Borrows s a t → .copy i t ∉ hs) :
    (references hs i s a).Nodup := by
  rcases references_cases hs i s a with ⟨heq, -⟩ | ⟨t, hb, -, heq⟩ | ⟨-, hb, heq⟩ <;> rw [heq]
  · exact h
  · exact List.nodup_cons.2 ⟨hfree t hb, h⟩
  · exact List.nodup_cons.2 ⟨fun hm => hfree _ hb (List.mem_of_mem_erase hm), h.erase _⟩

theorem references_acquirer {a : Action} : .acquirer ∈ references hs i s a ↔ .acquirer ∈ hs := by
  rcases references_cases hs i s a with ⟨heq, -⟩ | ⟨t, -, -, heq⟩ | ⟨-, -, heq⟩ <;> rw [heq]
  · simp
  · rw [List.mem_cons, List.mem_erase_of_ne (by simp)]
    simp

/-- A step of a live context and who has the runtime. -/
theorem references_member {a : Action} (h : hs.Nodup) (hmember : .member i ∈ hs ↔ s.ctx.runtime = true) :
    .member j ∈ references hs i s a ↔ .member j ∈ hs ∧ ¬ (j = i ∧ movesOut s a) := by
  rcases references_cases hs i s a with ⟨heq, hno⟩ | ⟨t, -, hno, heq⟩ | ⟨hm, -, heq⟩ <;> rw [heq]
  · refine ⟨fun hj => ⟨hj, ?_⟩, And.left⟩
    rintro ⟨rfl, hm⟩
    exact hno ⟨hm, hmember.1 hj⟩
  · simp [hno]
  · rw [List.mem_cons, h.mem_erase_iff]
    simp [hm, and_comm]

/-! ## The object and its thread -/

/-- It runs, and nobody has asked it to stop. -/
structure Runtime.Up (r : Runtime) : Prop where
  complete : r.initializationComplete = true
  succeeded : r.initializationSucceeded = true
  stopping : r.stopping = false
  appThread : r.appThread = true
  thread : r.thread = .running none
  callbacks : r.stopCallbacks = 0

theorem Runtime.Up.isAvailable (h : r.Up) : r.isAvailable = true := by
  simp [Runtime.isAvailable, h.succeeded, h.stopping, h.appThread]

/-- The thread has not called `spdk_app_start`. -/
def ThreadPc.Before : ThreadPc → Prop
  | .settingFlags _ | .entering => True
  | _ => False

/-- The thread has called `spdk_app_start`, and goes on. -/
def ThreadPc.Entered : ThreadPc → Prop
  | .starting | .running _ | .returned _ | .notifying => True
  | _ => False

/-- `spdk_app_start` has called back, or has returned. -/
def ThreadPc.Ran : ThreadPc → Prop
  | .running _ | .returned _ | .notifying | .exited => True
  | _ => False

/-- What the fields of the object say about each other. -/
structure Runtime.Steady (r : Runtime) : Prop where
  ran : r.initializationSucceeded = true → r.initializationComplete = true ∧ r.thread.Ran
  kept : r.initializationSucceeded = false → r.stopping = false
  callbacks : r.stopping = false → r.stopCallbacks = 0

/-- `is_available()` has not turned false. -/
def Runtime.offered (r : Runtime) : Bool := !r.initializationSucceeded || r.isAvailable

theorem new_steady (config : Plugin.SpdkRuntimeConfig) : (Runtime.new config).Steady :=
  ⟨by simp [Runtime.new], fun _ => rfl, fun _ => rfl⟩

/-- While it runs and is not asked to stop, its thread does nothing. -/
theorem Runtime.Up.stays (h : r.Up) (c : ThreadChoice) : threadStep strerror r c = none := by
  cases c <;> simp [threadStep, h.thread, h.callbacks]

theorem Runtime.Steady.failed (h : r.Steady) (hno : ¬ r.thread.Ran) : r.initializationSucceeded = false := by
  by_contra hyes
  exact hno (h.ran (by simpa using hyes)).2

/-- The application is asked to stop, where it runs. -/
inductive Asked (r : Runtime) : Runtime → Prop
  | same : Asked r r
  | stop (stop : Option Int) (rc : Int) (h : r.thread = .running stop) : Asked r { r with thread := .running (some rc) }

theorem spdkAppStop_asked (r : Runtime) (rc : Int) : Asked r (spdkAppStop r rc) := by
  unfold spdkAppStop
  split
  · exact .stop _ _ ‹_›
  · exact .same

theorem application_asked (r : Runtime) (s : Sys) (a : Action) : Asked r (application r s a) := by
  unfold application
  split
  · split
    · split
      · exact .same
      · exact spdkAppStop_asked r _
    · exact .same
  · exact .same

/-- After a step of a context the object is the one it was, but for what a worker has asked of the application. -/
theorem application_some {o : Option Runtime} {a : Action} (h : o.map (fun r => application r s a) = some r') :
    ∃ r, o = some r ∧ Asked r r' := by
  obtain ⟨r, hr, rfl⟩ := Option.map_eq_some_iff.1 h
  exact ⟨r, hr, application_asked r s a⟩

theorem Asked.steady (ha : Asked r r') (h : r.Steady) : r'.Steady := by
  cases ha with
  | same => exact h
  | stop stop rc hpc => exact ⟨fun hs => ⟨(h.ran hs).1, trivial⟩, h.kept, h.callbacks⟩

theorem Asked.fields (ha : Asked r r') : r'.config = r.config ∧ r'.initializationSucceeded = r.initializationSucceeded ∧
    r'.stopping = r.stopping ∧ r'.isAvailable = r.isAvailable := by
  cases ha <;> exact ⟨rfl, rfl, rfl, rfl⟩

theorem Asked.thread (ha : Asked r r') :
    (r'.thread.Entered → r.thread.Entered) ∧ (r'.thread.Before → r.thread.Before) := by
  cases ha with
  | same => exact ⟨id, id⟩
  | stop stop rc hpc => exact ⟨fun _ => by rw [hpc]; trivial, False.elim⟩

/-- What a step of the runtime's thread is. -/
inductive Threaded (strerror : Nat → String) (r : Runtime) : Runtime → Bool → Prop
  | flagged (flag : Codec.Str) (todo : List Codec.Str) (h : r.thread = .settingFlags (flag :: todo)) :
      Threaded strerror r { r with thread := .settingFlags todo } false
  | unknown (flag : Codec.Str) (todo : List Codec.Str) (error : String) (h : r.thread = .settingFlags (flag :: todo)) :
      Threaded strerror r { r with
        lastError := error, initializationSucceeded := false, initializationComplete := true, thread := .publishing } false
  | set (h : r.thread = .settingFlags []) : Threaded strerror r { r with thread := .entering } false
  | entered (h : r.thread = .entering) : Threaded strerror r { r with thread := .starting } false
  | started (appThread : Bool) (h : r.thread = .starting) : Threaded strerror r (onAppStart r appThread) true
  | stopCalled (stop : Option Int) (n : Nat) (h : r.thread = .running stop) (hn : r.stopCallbacks = n + 1) :
      Threaded strerror r { r with thread := .running (some (stop.getD 0)), stopCallbacks := n } false
  | failed (rc : Int) (h : r.thread = .starting) : Threaded strerror r { r with thread := .returned rc } false
  | stopped (stop rc : Int) (h : r.thread = .running (some stop)) :
      Threaded strerror r { r with thread := .returned rc } false
  | ended (rc : Int) (h : r.thread = .returned rc) : Threaded strerror r (onAppReturn strerror r rc) false
  | exited (h : r.thread = .publishing ∨ r.thread = .notifying) : Threaded strerror r { r with thread := .exited } true

theorem threadStep_threaded {c : ThreadChoice} {notify : Bool} (h : threadStep strerror r c = some (r', notify)) :
    Threaded strerror r r' notify := by
  cases c with
  | next =>
    simp only [threadStep] at h
    split at h
    · cases h
      exact .set ‹_›
    · cases h
      exact .entered ‹_›
    · cases h
      exact .ended _ ‹_›
    · cases h
      exact .exited (.inl ‹_›)
    · cases h
      exact .exited (.inr ‹_›)
    · cases h
  | flag known =>
    simp only [threadStep] at h
    split at h
    · rename_i flag todo hthread
      cases known with
      | true =>
        cases h
        exact .flagged flag todo hthread
      | false =>
        cases h
        exact .unknown flag todo _ hthread
    · cases h
  | appStart appThread =>
    simp only [threadStep] at h
    split at h
    · cases h
      exact .started appThread ‹_›
    · cases h
  | appReturns rc =>
    simp only [threadStep] at h
    split at h
    · cases h
      exact .failed rc ‹_›
    · cases h
      exact .stopped _ rc ‹_›
    · cases h
  | stopCallback =>
    simp only [threadStep] at h
    split at h
    · rename_i stop n hthread hn
      have hstop : spdkAppStop { r with stopCallbacks := n } 0 =
          { r with thread := .running (some (stop.getD 0)), stopCallbacks := n } := by simp [spdkAppStop, hthread]
      rw [hstop] at h
      cases h
      exact .stopCalled stop n hthread hn
    · cases h

theorem Threaded.stopping {notify : Bool} (h : Threaded strerror r r' notify) : r'.stopping = r.stopping := by
  cases h with
  | started appThread => cases appThread <;> rfl
  | ended rc =>
    unfold onAppReturn
    split <;> rfl
  | _ => rfl

theorem Threaded.steady {notify : Bool} (ht : Threaded strerror r r' notify) (h : r.Steady) : r'.Steady := by
  -- before it has called back nothing has succeeded
  have hearly : ∀ pc, r.thread = pc → ¬ pc.Ran → r.initializationSucceeded = false := by
    rintro pc rfl hno
    exact h.failed hno
  cases ht with
  | flagged flag todo hpc =>
    have hno := hearly _ hpc id
    exact ⟨by simp [hno], h.kept, h.callbacks⟩
  | unknown flag todo error hpc => exact ⟨by simp, fun _ => h.kept (hearly _ hpc id), h.callbacks⟩
  | set hpc =>
    have hno := hearly _ hpc id
    exact ⟨by simp [hno], h.kept, h.callbacks⟩
  | entered hpc =>
    have hno := hearly _ hpc id
    exact ⟨by simp [hno], h.kept, h.callbacks⟩
  | started appThread hpc =>
    cases appThread with
    | true => exact ⟨fun _ => ⟨rfl, trivial⟩, nofun, h.callbacks⟩
    | false => exact ⟨nofun, fun _ => h.kept (hearly _ hpc id), h.callbacks⟩
  | stopCalled stop n hpc hn =>
    refine ⟨fun hs => ⟨(h.ran hs).1, trivial⟩, h.kept, fun hgoes => ?_⟩
    exact absurd ((h.callbacks hgoes).symm.trans hn) (by simp)
  | failed rc hpc =>
    have hno := hearly _ hpc id
    exact ⟨by simp [hno], h.kept, h.callbacks⟩
  | stopped stop rc hpc => exact ⟨fun hs => ⟨(h.ran hs).1, trivial⟩, h.kept, h.callbacks⟩
  | ended rc hpc =>
    unfold onAppReturn
    split
    · rename_i hcomplete
      refine ⟨by simp, fun _ => h.kept ?_, h.callbacks⟩
      by_contra hs
      exact absurd (h.ran (by simpa using hs)).1 (by simpa using hcomplete)
    · exact ⟨fun hs => ⟨(h.ran hs).1, trivial⟩, h.kept, h.callbacks⟩
  | exited hpc => exact ⟨fun hs => ⟨(h.ran hs).1, trivial⟩, h.kept, h.callbacks⟩

theorem offered_same (r : Runtime) : r.offered = (r.offered && !(r.isAvailable && !r.isAvailable)) := by
  rw [Bool.and_not_self, Bool.not_false, Bool.and_true]

/-- It stays initialised, and `is_available()` turns false once. -/
theorem Threaded.offered {notify : Bool} (ht : Threaded strerror r r' notify) (h : r.Steady) :
    (r.initializationSucceeded = true → r'.initializationSucceeded = true) ∧
    r'.offered = (r.offered && !(r.isAvailable && !r'.isAvailable)) := by
  have hearly : ∀ pc, r.thread = pc → ¬ pc.Ran → r.initializationSucceeded = false := by
    rintro pc rfl hno
    exact h.failed hno
  cases ht with
  | unknown flag todo error hpc => simp [Runtime.offered, Runtime.isAvailable, hearly _ hpc id]
  | started appThread hpc =>
    have hno := hearly _ hpc id
    cases appThread <;> simp [Runtime.offered, Runtime.isAvailable, onAppStart, hno, h.kept hno]
  | ended rc hpc =>
    unfold onAppReturn
    split
    · rename_i hcomplete
      have hno : r.initializationSucceeded = false := by
        by_contra hs
        exact absurd (h.ran (by simpa using hs)).1 (by simpa using hcomplete)
      simp [Runtime.offered, Runtime.isAvailable, hno]
    · refine ⟨id, ?_⟩
      cases hs : r.initializationSucceeded <;> simp [Runtime.offered, Runtime.isAvailable, hs]
  | _ => exact ⟨id, offered_same r⟩

/-! ## What the references say -/

/-- The holder of the mutex is in the constructor. -/
def Constructs (m : Option Acquiring) : Prop :=
  ∃ i env requested pc, m = some ⟨i, env, requested, pc⟩ ∧ (pc = .waiting ∨ pc = .sleeping ∨ pc = .joining)

structure Shared (p : Registry) : Prop where
  nodup : p.holders.Nodup
  members : ∀ i, .member i ∈ p.holders ↔ (p.world.context i).Shares
  told : p.world.Told
  steady : ∀ r, p.runtime = some r → r.Steady
  offered : ∀ r, p.runtime = some r → p.world.available = r.offered
  started : p.world.available = false → p.runtimeStartedOnce = true
  up : p.holders ≠ [] → p.destructor = none ∧ p.runtimeStartedOnce = true ∧
    ∃ r, p.runtime = some r ∧ r.initializationSucceeded = true ∧ r.stopping = false
  rising : Constructs p.mutex → p.holders = [] ∧ p.destructor = none ∧ p.granted = [] ∧
    ∃ r, p.runtime = some r ∧ r.stopping = false
  comparing : .acquirer ∈ p.holders ↔ ∃ i env requested, p.mutex = some ⟨i, env, requested, .comparing⟩
  falling : ∀ d, p.destructor = some d → p.runtimeStartedOnce = true ∧ ∀ r, p.runtime = some r →
    r.initializationSucceeded = true ∧ (d.2.2 ≠ .stopping → r.stopping = true)
  granted : p.granted ≠ [] → p.runtimeStartedOnce = true
  entered : ∀ r, p.runtime = some r → r.thread.Entered ∨ r.initializationSucceeded = true → p.runtimeStartedOnce = true

theorem Shared.notConstructs (h : Shared p) (hne : p.holders ≠ []) : ¬ Constructs p.mutex :=
  fun hc => hne (h.rising hc).1

theorem Shared.unheld (h : Shared p) (hd : p.destructor ≠ none) : p.holders = [] ∧ ¬ Constructs p.mutex := by
  refine ⟨?_, fun hc => hd (h.rising hc).2.1⟩
  by_contra hne
  exact hd (h.up hne).1

/-- The contexts go on, and none gives its runtime up. -/
theorem Shared.world (h : Shared p) (ha : w'.available = p.world.available) (ht : w'.Told)
    (hsame : ∀ j, (w'.context j).Shares ↔ (p.world.context j).Shares) : Shared { p with world := w' } :=
  { h with
    members := fun j => (h.members j).trans (hsame j).symm
    told := ht
    offered := fun r hr => ha.trans (h.offered r hr)
    started := fun hno => h.started (ha ▸ hno) }

/-- A reference is given up. -/
theorem Shared.giveUp (h : Shared p) {x : Holder} (hx : x ∈ p.holders) (ha : w.available = p.world.available)
    (ht : w.Told) (hshares : ∀ j, (w.context j).Shares ↔ (p.world.context j).Shares ∧ x ≠ .member j)
    {m : Option Acquiring} (hnot : ¬ Constructs m)
    (hcomparing : .acquirer ∈ p.holders.erase x ↔ ∃ i env requested, m = some ⟨i, env, requested, .comparing⟩) :
    Shared { Registry.giveUp { p with world := w } x i t with mutex := m } := by
  have hne := List.ne_nil_of_mem hx
  obtain ⟨hnone, honce, r, hr, hsucceeded, hgoes⟩ := h.up hne
  refine ⟨h.nodup.erase x, fun j => ?_, ht, h.steady, fun r hr => ha.trans (h.offered r hr),
    fun hno => h.started (ha ▸ hno), fun hleft => ⟨?_, honce, r, hr, hsucceeded, hgoes⟩, fun hc => absurd hc hnot,
    hcomparing, fun d hd => ⟨honce, fun r' hr' => ?_⟩, h.granted, h.entered⟩
  · show .member j ∈ p.holders.erase x ↔ (w.context j).Shares
    rw [h.nodup.mem_erase_iff, h.members, hshares, and_comm, ne_comm]
  · have hleft : p.holders.erase x ≠ [] := hleft
    simp [Registry.giveUp, hleft, hnone]
  · -- the destructor begins
    have hr' : p.runtime = some r' := hr'
    obtain rfl : r = r' := by simpa [hr] using hr'
    refine ⟨hsucceeded, fun hpc => absurd ?_ hpc⟩
    simp only [Registry.giveUp] at hd
    split at hd
    · cases hd
      rfl
    · cases hnone.symm.trans hd

theorem setContext_shares {y : Context} {claimed : Finset String} :
    (({ w.setContext i y with claimedBdevs := claimed } : World).context j).Shares ↔
      if j = i then y.Shares else (w.context j).Shares := by
  show ((w.setContext i y).context j).Shares ↔ _
  rw [setContext_context]
  split <;> rfl

/-- A copy that a thread is about to take is not there yet. -/
theorem copy_free {a : Action} {releasing : Bool} (hphase : (p.world.context i).phase = .live s releasing)
    (hallows : p.allows (.context i a) = true) (hb : Borrows s a t) (hmoved : t = .owner → releasing = false) :
    .copy i t ∉ p.holders := by
  obtain ⟨hactor, -, huse⟩ := hb
  have hbusy : p.busy i t = false := by
    simp only [Registry.allows, hactor] at hallows
    cases t <;> simp_all
  have huses : p.uses i t = false := by
    simp only [Registry.uses, hphase, huse]
    cases t <;> simp_all
  intro hm
  simp [Registry.busy, huses, hm] at hbusy

/-- `liveStep` lets the owner go on only when it is not in `ReleaseBdev`. -/
theorem owner_idle {env : Env} {releasing : Bool} {a : Action} {x : Sys × Bool} (h : liveStep env s releasing a = some x)
    (ha : actorOf a = some .owner) : releasing = false := by
  cases a with
  | owner c =>
    simp only [liveStep] at h
    split at h
    · cases h
    · simpa using ‹¬ releasing = true›
  | _ => cases ha

theorem contexts_shared {a : WorldAction} (h : Shared p) (hallows : p.allows a = true)
    (hs : p.contextsStep a = some p') : Shared p' := by
  have hstops : a ≠ .runtimeStops := by
    rintro rfl
    cases hallows
  obtain ⟨w', hw, rfl⟩ := Option.map_eq_some_iff.1 hs
  obtain ⟨hav, htold⟩ := worldStep_told hw hstops h.told
  obtain ⟨y, claimed, hb, hw'⟩ := worldStep_became hw hstops
  have hmember : ∀ i, (p.world.context i).Shares → .member i ∈ p.holders := fun i => (h.members i).2
  have hgone : ∀ i, a.index = i → (p.world.context i).Shares → (∃ error, y.phase = .failed error) →
      Shared (Registry.giveUp { p with world := w' } (.member i) i .owner) := by
    rintro i hi hshares ⟨error, hfailed⟩
    refine h.giveUp (m := p.mutex) (hmember i hshares) hav htold (fun j => ?_) ?_ ?_
    · rw [hw', setContext_shares, hi]
      by_cases hj : j = i
      · simp [hj, Context.Shares, hfailed]
      · simp [hj, Ne.symm hj]
    · exact h.notConstructs (List.ne_nil_of_mem (hmember i hshares))
    · rw [List.mem_erase_of_ne (by simp)]
      exact h.comparing
  have hsame : ∀ i, a.index = i → (y.Shares ↔ (p.world.context i).Shares) → Shared { p with world := w' } := by
    intro i hi hy
    refine h.world hav htold fun j => ?_
    rw [hw', setContext_shares, hi]
    by_cases hj : j = i
    · simpa [hj] using hy
    · simp [hj]
  have hy : w'.context a.index = y := by
    rw [hw']
    show (p.world.setContext a.index y).context a.index = y
    simp
  cases hb with
  | constructed i env error hx =>
    cases error with
    | none => cases hallows
    | some error =>
      have hx : (p.world.context i).phase = .absent := hx
      exact hsame i rfl (by simp [Context.Shares, hx])
  | refused i error hx =>
    have hx : (p.world.context i).phase = .claiming := hx
    have hfailed : (w'.context i).phase = .failed error := congrArg Context.phase hy
    simp only [hfailed]
    exact hgone i rfl (by simp [Context.Shares, hx]) ⟨error, rfl⟩
  | claimed i hx =>
    have hx : (p.world.context i).phase = .claiming := hx
    have hsending : (w'.context i).phase = .sending := congrArg Context.phase hy
    simp only [hsending]
    exact hsame i rfl (by simp [Context.Shares, hx])
  | unsent i rc device error hx =>
    have hx : (p.world.context i).phase = .sending := hx
    exact hsame i rfl (by simp [Context.Shares, hx])
  | sent i device hx =>
    have hx : (p.world.context i).phase = .sending := hx
    exact hsame i rfl (by simp [Context.Shares, hx, Sys.init])
  | abandoned i error hx =>
    have hx : (p.world.context i).phase = .abandoning error := hx
    have hfailed : (w'.context i).phase = .failed error := congrArg Context.phase hy
    simp only [hfailed]
    exact hgone i rfl (by simp [Context.Shares, hx]) ⟨error, rfl⟩
  | released i s hx =>
    have hx : (p.world.context i).phase = .live s true := hx
    exact hsame i rfl (by simp [Context.Shares, hx])
  | stepped i a s releasing x hx hl =>
    have hx' : (p.world.context i).phase = .live s releasing := hx
    simp only [hx']
    obtain ⟨-, hmoves, hstays⟩ := liveStep_runtime hl
    have hmine : .member i ∈ p.holders ↔ s.ctx.runtime = true := by
      rw [h.members]
      simp [Context.Shares, hx']
    have hnil : p.holders = [] → references p.holders i s a = [] := by
      intro hnone
      have hno : s.ctx.runtime = false := by
        by_contra hyes
        exact absurd (hmine.2 (by simpa using hyes)) (by simp [hnone])
      rw [references_unshared hno, hnone]
    have hne : references p.holders i s a ≠ [] → p.holders ≠ [] := fun hne hnone => hne (hnil hnone)
    refine ⟨references_nodup h.nodup fun t hb => copy_free hx' hallows hb fun ht => ?_, fun j => ?_, htold,
      fun q hq => ?_, fun q hq => ?_, fun hno => h.started (hav ▸ hno), fun hleft => ?_, fun hc => ?_,
      references_acquirer.trans h.comparing, fun d hd => ⟨(h.falling d hd).1, fun q hq => ?_⟩, h.granted,
      fun q hq hentered => ?_⟩
    · exact owner_idle hl (ht ▸ hb.1)
    · rw [references_member h.nodup hmine, h.members, hw', setContext_shares]
      by_cases hj : j = i
      · subst hj
        by_cases hm : movesOut s a
        · simp [WorldAction.index, Context.Shares, hm, hmoves hm]
        · simp [WorldAction.index, Context.Shares, hm, hstays hm, hx']
      · simp [WorldAction.index, hj]
    · obtain ⟨r, hr, hasked⟩ := application_some hq
      exact hasked.steady (h.steady r hr)
    · obtain ⟨r, hr, hasked⟩ := application_some hq
      obtain ⟨-, hsucceeded, -, havailable⟩ := hasked.fields
      rw [hav, h.offered r hr, Runtime.offered, Runtime.offered, hsucceeded, havailable]
    · obtain ⟨hnone, honce, r, hr, hup⟩ := h.up (hne hleft)
      obtain ⟨-, hsucceeded, hstopping, -⟩ := (application_asked r s a).fields
      exact ⟨hnone, honce, _, by rw [hr]; rfl, hsucceeded.trans hup.1, hstopping.trans hup.2⟩
    · obtain ⟨hnone, hd, hgranted, r, hr, hgoes⟩ := h.rising hc
      exact ⟨hnil hnone, hd, hgranted, _, by rw [hr]; rfl, (application_asked r s a).fields.2.2.1.trans hgoes⟩
    · obtain ⟨r, hr, hasked⟩ := application_some hq
      obtain ⟨-, hsucceeded, hstopping, -⟩ := hasked.fields
      rw [hsucceeded, hstopping]
      exact (h.falling d hd).2 r hr
    · obtain ⟨r, hr, hasked⟩ := application_some hq
      exact h.entered r hr (hentered.imp hasked.thread.1 hasked.fields.2.1.symm.trans)

/-! ## The other steps -/

theorem Shared.refuse (h : Shared p) {env : Env} {error : String} (hs : p.refuse i env error = some p') : Shared p' := by
  obtain ⟨w', hw, rfl⟩ := Option.map_eq_some_iff.1 hs
  obtain ⟨hav, htold⟩ := worldStep_told hw (by simp) h.told
  obtain ⟨y, claimed, hb, rfl⟩ := worldStep_became hw (by simp)
  refine h.world hav htold fun j => ?_
  rw [setContext_shares]
  cases hb with
  | constructed i env error hx =>
    have hx : (p.world.context i).phase = .absent := hx
    by_cases hj : j = i
    · simp [WorldAction.index, hj, Context.Shares, hx]
    · simp [WorldAction.index, hj]

/-- The runtime is returned by `Acquire`. -/
theorem Shared.grant (h : Shared p) {env : Env} {config : Plugin.SpdkRuntimeConfig}
    (hup : p.destructor = none ∧ p.runtimeStartedOnce = true ∧
      ∃ r, p.runtime = some r ∧ r.initializationSucceeded = true ∧ r.stopping = false)
    (hfree : ¬ Constructs p.mutex) (hs : p.grant i env config = some p') : Shared p' := by
  obtain ⟨w', hw, rfl⟩ := Option.map_eq_some_iff.1 hs
  obtain ⟨hav, htold⟩ := worldStep_told hw (by simp) h.told
  obtain ⟨y, claimed, hb, rfl⟩ := worldStep_became hw (by simp)
  cases hb with
  | constructed i env error hx =>
    have hx : (p.world.context i).phase = .absent := hx
    have hnew : .member i ∉ p.holders := by
      rw [h.members]
      simp [Context.Shares, hx]
    refine ⟨List.nodup_cons.2 ⟨hnew, h.nodup⟩, fun j => ?_, htold, h.steady, h.offered, h.started, fun _ => hup,
      fun hc => absurd hc hfree, ?_, h.falling, fun _ => hup.2.1, h.entered⟩
    · rw [setContext_shares, List.mem_cons, h.members]
      by_cases hj : j = i
      · simp [WorldAction.index, hj, Context.Shares]
      · simp [WorldAction.index, hj]
    · simpa using h.comparing

theorem acquire_shared {env : Env} {requested : Except Exn Plugin.SpdkRuntimeConfig} (h : Shared p)
    (hs : p.acquire i env requested = some p') : Shared p' := by
  unfold Registry.acquire at hs
  split at hs
  · exact h.refuse hs
  · rename_i requested
    split at hs
    · cases hs
    · rename_i hfree
      have hnone : p.mutex = none := by simpa using hfree
      have hfree : ¬ Constructs p.mutex := by simp [Constructs, hnone]
      have hacquirer : .acquirer ∉ p.holders := by simp [h.comparing, hnone]
      split at hs
      · rename_i r x hs' hruntime hholders
        have hup := h.up (by simp [hholders])
        split at hs
        · exact h.grant hup hfree hs
        · cases hs
          refine ⟨List.nodup_cons.2 ⟨hacquirer, h.nodup⟩, fun j => ?_, h.told, h.steady, h.offered, h.started,
            fun _ => hup, ?_, ?_, h.falling, h.granted, h.entered⟩
          · simpa using h.members j
          · rintro ⟨i', env', requested', pc, heq, hpc⟩
            cases heq
            simp at hpc
          · simp
      · split at hs
        · exact h.refuse hs
        · rename_i honce
          have honce : p.runtimeStartedOnce = false := by simpa using honce
          have hnever : p.runtimeStartedOnce ≠ true := by simp [honce]
          have hnil : p.holders = [] := by
            by_contra hne
            exact hnever (h.up hne).2.1
          have hdestructor : p.destructor = none := by
            by_contra hd
            obtain ⟨d, hd⟩ := Option.ne_none_iff_exists'.1 hd
            exact hnever (h.falling d hd).1
          have hgranted : p.granted = [] := by
            by_contra hg
            exact hnever (h.granted hg)
          have hav : p.world.available = true := by
            by_contra hno
            exact hnever (h.started (by simpa using hno))
          cases hs
          refine ⟨h.nodup, h.members, h.told, fun r hr => ?_, fun r hr => ?_, h.started, fun hne => absurd hnil hne,
            fun _ => ?_, ?_, fun d hd => absurd (hdestructor.symm.trans hd) nofun, h.granted, fun r hr => ?_⟩
          · cases hr
            exact new_steady requested
          · cases hr
            exact hav
          · exact ⟨hnil, hdestructor, hgranted, _, rfl, rfl⟩
          · simp [hnil]
          · cases hr
            simp [Runtime.new, ThreadPc.Entered]

theorem acquirer_shared (h : Shared p) (hs : p.acquirerStep = some p') : Shared p' := by
  unfold Registry.acquirerStep at hs
  split at hs
  · rename_i i env requested hmutex
    cases hs
    refine h.giveUp (w := p.world) (h.comparing.2 ⟨i, env, requested, hmutex⟩) rfl h.told (fun j => by simp) ?_ ?_
    · simp [Constructs]
    · simp [h.nodup.mem_erase_iff]
  · rename_i i env requested hmutex
    split at hs
    · cases hs
    · refine Shared.refuse (p := { p with mutex := none }) { h with rising := ?_, comparing := ?_ } hs
      · simp [Constructs]
      · simp [h.comparing, hmutex]
  · rename_i i env requested r hmutex hruntime
    obtain ⟨hnil, hdestructor, hgranted, r', hr', hgoes⟩ := h.rising ⟨i, env, requested, _, hmutex, .inl rfl⟩
    obtain rfl : r = r' := by simpa [hruntime] using hr'
    have hmove : ∀ pc, pc = .waiting ∨ pc = .sleeping ∨ pc = .joining →
        Shared { p with mutex := some ⟨i, env, requested, pc⟩ } := by
      intro pc hpc
      refine { h with rising := fun _ => ⟨hnil, hdestructor, hgranted, r, hruntime, hgoes⟩, comparing := ?_ }
      rcases hpc with rfl | rfl | rfl <;> simp [hnil]
    split at hs
    · cases hs
      exact hmove .sleeping (.inr (.inl rfl))
    · split at hs
      · rename_i hsucceeded
        have honce : p.runtimeStartedOnce = true := h.entered r hruntime (.inr hsucceeded)
        refine Shared.grant (p := { p with mutex := none }) { h with rising := ?_, comparing := ?_ }
          ⟨hdestructor, honce, r, hruntime, hsucceeded, hgoes⟩ (by simp [Constructs]) hs
        · simp [Constructs]
        · simp [hnil]
      · cases hs
        exact hmove .joining (.inr (.inr rfl))
  · rename_i i env requested r hmutex hruntime
    cases hs
    have hc : Constructs p.mutex := ⟨i, env, requested, _, hmutex, .inr (.inl rfl)⟩
    refine { h with rising := fun _ => h.rising hc, comparing := ?_ }
    simp [(h.rising hc).1]
  · rename_i i env requested r hmutex hruntime
    have hc : Constructs p.mutex := ⟨i, env, requested, _, hmutex, .inr (.inr rfl)⟩
    obtain ⟨hnil, hdestructor, hgranted, -⟩ := h.rising hc
    split at hs
    · have hleft : Shared { p with mutex := none, runtime := none } :=
        { h with
          steady := by simp
          offered := by simp
          up := fun hne => absurd hnil hne
          rising := by simp [Constructs]
          comparing := by simp [hnil]
          falling := fun d hd => by cases hdestructor.symm.trans hd
          entered := by simp }
      exact hleft.refuse hs
    · cases hs
  · cases hs

theorem notifyAll_shared (h : Shared p) : Shared p.notifyAll := by
  unfold Registry.notifyAll
  split
  · rename_i i env requested hmutex
    have hc : Constructs p.mutex := ⟨i, env, requested, _, hmutex, .inr (.inl rfl)⟩
    refine { h with rising := fun _ => h.rising hc, comparing := ?_ }
    simp [(h.rising hc).1]
  · exact h

theorem become_eq (h : p.become r r' = some p') : ∃ w', p' = { p with world := w', runtime := some r' } := by
  unfold Registry.become at h
  split at h
  · obtain ⟨w', -, rfl⟩ := Option.map_eq_some_iff.1 h
    exact ⟨w', rfl⟩
  · cases h
    exact ⟨p.world, rfl⟩

/-- The contexts see `is_available()` turn false. -/
theorem become_told (h : p.become r r' = some p') (ht : p.world.Told) :
    ∃ w', p' = { p with world := w', runtime := some r' } ∧ w'.Told ∧
      (∀ j, (w'.context j).Shares ↔ (p.world.context j).Shares) ∧
      w'.available = (p.world.available && !(r.isAvailable && !r'.isAvailable)) := by
  unfold Registry.become at h
  split at h
  · rename_i hturns
    obtain ⟨w', hw, rfl⟩ := Option.map_eq_some_iff.1 h
    cases hw
    refine ⟨_, rfl, fun j s releasing hj => ?_, fun j => Iff.symm ?_, by simp [hturns]⟩
    · dsimp only at hj
      split at hj
      · cases hj
        rfl
      · rename_i hno
        exact absurd hj (hno s releasing)
    · simp only [Context.Shares]
      split <;> simp_all
  · rename_i hstays
    cases h
    refine ⟨_, rfl, ht, fun j => Iff.rfl, ?_⟩
    rw [Bool.eq_false_iff.2 hstays]
    simp

theorem thread_shared {c : ThreadChoice} (h : Shared p) (hs : p.threadStep strerror c = some p') : Shared p' := by
  unfold Registry.threadStep at hs
  split at hs
  · cases hs
  · rename_i r hruntime
    split at hs
    · cases hs
    · obtain ⟨⟨r', notify⟩, hstep, hs⟩ := Option.bind_eq_some_iff.1 hs
      obtain ⟨q, hq, rfl⟩ := Option.map_eq_some_iff.1 hs
      obtain ⟨w', rfl, htold, hsame, hav⟩ := become_told hq h.told
      have ht := threadStep_threaded hstep
      have hsteady := h.steady r hruntime
      obtain ⟨hkeeps, hoffered⟩ := ht.offered hsteady
      have honce : p.runtimeStartedOnce = true → (p.runtimeStartedOnce || r.thread == .entering) = true := by
        intro honce
        rw [honce, Bool.true_or]
      have hentered : r'.thread.Entered ∨ r'.initializationSucceeded = true →
          (p.runtimeStartedOnce || r.thread == .entering) = true := by
        intro he
        cases ht with
        | flagged flag todo hpc => exact honce (h.entered r hruntime (.inr (he.resolve_left id)))
        | unknown flag todo error hpc => exact absurd (he.resolve_left id) (by simp)
        | set hpc => exact honce (h.entered r hruntime (.inr (he.resolve_left id)))
        | entered hpc => simp [hpc]
        | exited hpc => exact honce (h.entered r hruntime (.inr (he.resolve_left id)))
        | started appThread hpc => exact honce (h.entered r hruntime (.inl (by rw [hpc]; trivial)))
        | stopCalled stop n hpc => exact honce (h.entered r hruntime (.inl (by rw [hpc]; trivial)))
        | failed rc hpc => exact honce (h.entered r hruntime (.inl (by rw [hpc]; trivial)))
        | stopped stop rc hpc => exact honce (h.entered r hruntime (.inl (by rw [hpc]; trivial)))
        | ended rc hpc => exact honce (h.entered r hruntime (.inl (by rw [hpc]; trivial)))
      have hnext : Shared { p with
          world := w'
          runtime := some r'
          runtimeStartedOnce := p.runtimeStartedOnce || r.thread == .entering
          starts := if r.thread = .entering then p.starts + 1 else p.starts } := by
        refine ⟨h.nodup, fun j => (h.members j).trans (hsame j).symm, htold, fun r0 hr0 => ?_, fun r0 hr0 => ?_,
          fun hno => ?_, fun hne => ?_, fun hc => ?_, h.comparing, fun d hd => ⟨honce (h.falling d hd).1, fun r0 hr0 => ?_⟩,
          fun hg => honce (h.granted hg), fun r0 hr0 he => ?_⟩
        · cases hr0
          exact ht.steady hsteady
        · cases hr0
          rw [hav, h.offered r hruntime, hoffered]
        · by_cases hsaw : p.world.available = false
          · exact honce (h.started hsaw)
          · have hturns : r.isAvailable = true := by
              by_contra hno'
              simp_all
            have hsucceeded : r.initializationSucceeded = true := by
              simp only [Runtime.isAvailable, Bool.and_eq_true] at hturns
              exact hturns.1.1
            exact honce (h.entered r hruntime (.inr hsucceeded))
        · obtain ⟨hnone, honce', r0, hr0, hsucceeded, hgoes⟩ := h.up hne
          obtain rfl : r = r0 := by simpa [hruntime] using hr0
          exact ⟨hnone, honce honce', r', rfl, hkeeps hsucceeded, ht.stopping.trans hgoes⟩
        · obtain ⟨h1, h2, h3, r0, hr0, hgoes⟩ := h.rising hc
          obtain rfl : r = r0 := by simpa [hruntime] using hr0
          exact ⟨h1, h2, h3, r', rfl, ht.stopping.trans hgoes⟩
        · cases hr0
          obtain ⟨hsucceeded, hstopping⟩ := (h.falling d hd).2 r hruntime
          exact ⟨hkeeps hsucceeded, fun hpc => ht.stopping.trans (hstopping hpc)⟩
        · cases hr0
          exact hentered he
      cases notify with
      | true => exact notifyAll_shared hnext
      | false => exact hnext

theorem destructor_shared {rc : Int} (h : Shared p) (hs : p.destructorStep rc = some p') : Shared p' := by
  unfold Registry.destructorStep at hs
  split at hs
  · rename_i i t r hpc hruntime
    obtain ⟨hnil, hfree⟩ := h.unheld (by simp [hpc])
    obtain ⟨honce, hobject⟩ := h.falling _ hpc
    have hsucceeded := (hobject r hruntime).1
    split at hs
    · cases hs
    · obtain ⟨q, hq, rfl⟩ := Option.map_eq_some_iff.1 hs
      obtain ⟨w', rfl, htold, hsame, hav⟩ := become_told hq h.told
      refine ⟨h.nodup, fun j => (h.members j).trans (hsame j).symm, htold, fun r0 hr0 => ?_, fun r0 hr0 => ?_,
        fun _ => honce, fun hne => absurd hnil hne, fun hc => absurd hc hfree, h.comparing,
        fun d hd => ⟨honce, fun r0 hr0 => ?_⟩, h.granted, fun r0 hr0 _ => honce⟩
      · cases hr0
        exact ⟨(h.steady r hruntime).ran, fun hno => absurd (hsucceeded.symm.trans hno) (by simp), nofun⟩
      · cases hr0
        rw [hav, h.offered r hruntime]
        simp [Runtime.offered, Runtime.isAvailable, hsucceeded]
      · cases hr0
        exact ⟨hsucceeded, fun _ => rfl⟩
  · rename_i i t r hpc hruntime
    obtain ⟨hnil, hfree⟩ := h.unheld (by simp [hpc])
    obtain ⟨honce, hobject⟩ := h.falling _ hpc
    obtain ⟨hsucceeded, hstopping⟩ := hobject r hruntime
    have hstopping : r.stopping = true := hstopping (by simp)
    -- the message is posted, or the application is asked to stop from here
    have hposted : ∀ r', (r' = { r with stopCallbacks := r.stopCallbacks + 1 } ∨ Asked r r') → Shared { p with
        runtime := some r', destructor := some (i, t, .joining) } := by
      intro r' hr'
      have hfields : r'.initializationSucceeded = true ∧ r'.stopping = true ∧ r'.offered = r.offered ∧ r'.Steady := by
        rcases hr' with rfl | hasked
        · exact ⟨hsucceeded, hstopping, rfl, (h.steady r hruntime).ran, (h.steady r hruntime).kept,
            fun hno => absurd (hstopping.symm.trans hno) (by simp)⟩
        · obtain ⟨-, h1, h2, h3⟩ := hasked.fields
          exact ⟨h1.trans hsucceeded, h2.trans hstopping, by rw [Runtime.offered, Runtime.offered, h1, h3],
            hasked.steady (h.steady r hruntime)⟩
      obtain ⟨h1, h2, h3, h4⟩ := hfields
      refine { h with steady := ?_, offered := ?_, up := fun hne => absurd hnil hne, rising := fun hc => absurd hc hfree,
                      falling := fun d hd => ⟨honce, fun r0 hr0 => ?_⟩, entered := fun _ _ _ => honce }
      · rintro r0 hr0
        cases hr0
        exact h4
      · rintro r0 hr0
        cases hr0
        exact (h.offered r hruntime).trans h3.symm
      · cases hr0
        exact ⟨h1, fun _ => h2⟩
    cases hs
    refine hposted _ ?_
    split
    · exact .inl rfl
    · exact .inr (spdkAppStop_asked r rc)
  · rename_i i t r hpc hruntime
    obtain ⟨hnil, hfree⟩ := h.unheld (by simp [hpc])
    split at hs
    · cases hs
      exact { h with
        steady := by simp
        offered := by simp
        up := fun hne => absurd hnil hne
        rising := fun hc => absurd hc hfree
        falling := by simp
        entered := by simp }
    · cases hs
  · cases hs

theorem shared_step {a : RegistryAction} (h : Shared p) (hs : registryStep strerror p a = some p') : Shared p' := by
  cases a with
  | acquire i env environment isFile config =>
    simp only [registryStep] at hs
    split at hs
    · split at hs
      · cases hs
      · exact acquire_shared h hs
    · cases hs
  | acquirer => exact acquirer_shared h hs
  | thread c => exact thread_shared h hs
  | world a =>
    simp only [registryStep] at hs
    split at hs
    · exact contexts_shared h ‹_› hs
    · cases hs
  | leave i t =>
    simp only [registryStep] at hs
    split at hs
    · rename_i hheld
      cases hs
      have hheld : .copy i t ∈ p.holders := by
        simp only [Bool.and_eq_true, List.contains_iff_mem] at hheld
        exact hheld.1
      refine h.giveUp (w := p.world) (m := p.mutex) hheld rfl h.told (fun j => by simp) ?_ ?_
      · exact h.notConstructs (List.ne_nil_of_mem hheld)
      · rw [List.mem_erase_of_ne (by simp)]
        exact h.comparing
    · cases hs
  | destructor rc => exact destructor_shared h hs

theorem init_shared : Shared {} where
  nodup := List.nodup_nil
  members i := by simp [Context.Shares]
  told i s releasing hi := by cases hi
  steady := by simp
  offered := by simp
  started hno := by cases hno
  up hne := absurd rfl hne
  rising hc := by simp [Constructs] at hc
  comparing := by simp
  falling := by simp
  granted hg := absurd rfl hg
  entered := by simp

/-! ## An application that nobody stops -/

/-- The step is not one of a worker that could not post its acknowledgement, and calls `spdk_app_stop`. -/
def Registry.acknowledges (p : Registry) : RegistryAction → Bool
  | .world (.context i (.reactor v .next)) =>
    match (p.world.context i).phase with
    | .live s _ =>
      match (s.reactor v).stack.head? with
      | some (.life (.threadExit sendResult)) => sendResult == 0
      | _ => true
    | _ => true
  | _ => true

/-- Until its destructor runs, nobody has asked the application to stop. -/
def Registry.Unasked (p : Registry) : Prop :=
  ∀ r, p.runtime = some r → r.initializationSucceeded = true → r.stopping = false → r.Up

theorem acknowledged_application {a : Action} {releasing : Bool} (hphase : (p.world.context i).phase = .live s releasing)
    (h : p.acknowledges (.world (.context i a)) = true) (r : Runtime) : application r s a = r := by
  unfold application
  split
  · split
    · rename_i v sendResult hhead
      simp only [Registry.acknowledges, hphase, hhead, beq_iff_eq] at h
      rw [if_pos h]
    · rfl
  · rfl

theorem Registry.Unasked.same (h : p.Unasked) (hsame : p'.runtime = p.runtime) : p'.Unasked :=
  fun r hr => h r (hsame ▸ hr)

theorem Threaded.unasked {notify : Bool} (ht : Threaded strerror r r' notify) (hsteady : r.Steady)
    (h : r.initializationSucceeded = true → r.stopping = false → r.Up) (hs : r'.initializationSucceeded = true)
    (hgoes : r'.stopping = false) : r'.Up := by
  -- an application that is up makes no step
  have hstill : ∀ pc, r.thread = pc → pc ≠ .running none → r.initializationSucceeded = true → r.stopping = false →
      r'.Up := by
    rintro pc rfl hpc hs hgoes
    exact absurd (h hs hgoes).thread hpc
  cases ht with
  | flagged flag todo hpc | set hpc | entered hpc | failed rc hpc | stopped stop rc hpc =>
    exact hstill _ hpc (by simp) hs hgoes
  | unknown flag todo error hpc => cases hs
  | started appThread hpc =>
    cases appThread with
    | true => exact ⟨rfl, rfl, hgoes, rfl, rfl, hsteady.callbacks hgoes⟩
    | false => cases hs
  | stopCalled stop n hpc hn => exact absurd ((hsteady.callbacks hgoes).symm.trans hn) (by simp)
  | ended rc hpc =>
    unfold onAppReturn at hs hgoes hstill ⊢
    split at hs
    · cases hs
    · rename_i hcomplete
      rw [if_neg hcomplete] at hgoes hstill ⊢
      exact hstill _ hpc (by simp) hs hgoes
  | exited hpc =>
    rcases hpc with hpc | hpc
    · exact hstill _ hpc (by simp) hs hgoes
    · exact hstill _ hpc (by simp) hs hgoes

@[simp] theorem notifyAll_runtime (p : Registry) : p.notifyAll.runtime = p.runtime := by
  unfold Registry.notifyAll
  split <;> rfl

@[simp] theorem notifyAll_world (p : Registry) : p.notifyAll.world = p.world := by
  unfold Registry.notifyAll
  split <;> rfl

@[simp] theorem giveUp_world (p : Registry) (x : Holder) (i : Nat) (t : Actor) : (p.giveUp x i t).world = p.world := rfl

theorem refuse_runtime {env : Env} {error : String} (hs : p.refuse i env error = some p') : p'.runtime = p.runtime := by
  obtain ⟨w', hw, rfl⟩ := Option.map_eq_some_iff.1 hs
  rfl

theorem grant_runtime {env : Env} {config : Plugin.SpdkRuntimeConfig} (hs : p.grant i env config = some p') :
    p'.runtime = p.runtime := by
  obtain ⟨w', hw, rfl⟩ := Option.map_eq_some_iff.1 hs
  rfl

theorem acquire_unasked {env : Env} {requested : Except Exn Plugin.SpdkRuntimeConfig} (h : p.Unasked)
    (hs : p.acquire i env requested = some p') : p'.Unasked := by
  unfold Registry.acquire at hs
  split at hs
  · exact h.same (refuse_runtime hs)
  · split at hs
    · cases hs
    · split at hs
      · split at hs
        · exact h.same (grant_runtime hs)
        · cases hs
          exact h.same rfl
      · split at hs
        · exact h.same (refuse_runtime hs)
        · cases hs
          intro r hr hsucceeded
          cases hr
          cases hsucceeded

theorem acquirer_unasked (h : p.Unasked) (hs : p.acquirerStep = some p') : p'.Unasked := by
  unfold Registry.acquirerStep at hs
  split at hs
  · cases hs
    exact h.same rfl
  · split at hs
    · cases hs
    · exact h.same ((refuse_runtime hs).trans rfl)
  · split at hs
    · cases hs
      exact h.same rfl
    · split at hs
      · exact h.same ((grant_runtime hs).trans rfl)
      · cases hs
        exact h.same rfl
  · cases hs
    exact h.same rfl
  · split at hs
    · intro r hr
      rw [refuse_runtime hs] at hr
      cases hr
    · cases hs
  · cases hs

theorem thread_unasked {c : ThreadChoice} (hsh : Shared p) (h : p.Unasked) (hs : p.threadStep strerror c = some p') :
    p'.Unasked := by
  unfold Registry.threadStep at hs
  split at hs
  · cases hs
  · rename_i r hruntime
    split at hs
    · cases hs
    · obtain ⟨⟨r', notify⟩, hstep, hs⟩ := Option.bind_eq_some_iff.1 hs
      obtain ⟨q, hq, rfl⟩ := Option.map_eq_some_iff.1 hs
      obtain ⟨w', rfl⟩ := become_eq hq
      have hup := (threadStep_threaded hstep).unasked (hsh.steady r hruntime) (h r hruntime)
      intro r0 hr0 hsucceeded hgoes
      obtain rfl : r' = r0 := by cases notify <;> simpa using hr0
      exact hup hsucceeded hgoes

theorem contexts_unasked {a : WorldAction} (h : p.Unasked) (hack : p.acknowledges (.world a) = true)
    (hs : p.contextsStep a = some p') : p'.Unasked := by
  obtain ⟨w', hw, rfl⟩ := Option.map_eq_some_iff.1 hs
  dsimp only
  split
  · split <;> exact h.same rfl
  · split <;> exact h.same rfl
  · split
    · rename_i i a x s releasing hphase
      refine h.same ?_
      show p.runtime.map (fun r => application r s a) = p.runtime
      cases p.runtime with
      | none => rfl
      | some r => exact congrArg some (acknowledged_application hphase hack r)
    · exact h.same rfl
  · exact h.same rfl

theorem destructor_unasked {rc : Int} (hsh : Shared p) (hs : p.destructorStep rc = some p') : p'.Unasked := by
  unfold Registry.destructorStep at hs
  split at hs
  · split at hs
    · cases hs
    · obtain ⟨q, hq, rfl⟩ := Option.map_eq_some_iff.1 hs
      obtain ⟨w', rfl⟩ := become_eq hq
      intro r hr _ hgoes
      cases hr
      cases hgoes
  · rename_i i t r hpc hruntime
    have hstopping : r.stopping = true := ((hsh.falling _ hpc).2 r hruntime).2 (by simp)
    cases hs
    intro r' hr' _ hgoes
    cases hr'
    have hgoes : r.stopping = false := by
      split at hgoes
      · exact hgoes
      · exact (spdkAppStop_asked r rc).fields.2.2.1.symm.trans hgoes
    exact absurd (hstopping.symm.trans hgoes) (by simp)
  · split at hs
    · cases hs
      intro r hr
      cases hr
    · cases hs
  · cases hs

theorem unasked_step {a : RegistryAction} (hsh : Shared p) (h : p.Unasked) (hack : p.acknowledges a = true)
    (hs : registryStep strerror p a = some p') : p'.Unasked := by
  cases a with
  | acquire i env environment isFile config =>
    simp only [registryStep] at hs
    split at hs
    · split at hs
      · cases hs
      · exact acquire_unasked h hs
    · cases hs
  | acquirer => exact acquirer_unasked h hs
  | thread c => exact thread_unasked hsh h hs
  | world a =>
    simp only [registryStep] at hs
    split at hs
    · exact contexts_unasked h hack hs
    · cases hs
  | leave i t =>
    simp only [registryStep] at hs
    split at hs
    · cases hs
      exact h.same rfl
    · cases hs
  | destructor rc => exact destructor_unasked hsh hs

/-! ## The contexts of a registry -/

/-- What `is_available()` is in the steps of the contexts: the runtime stops once, when no context has it, and none is
constructed with it after. -/
def Supported (w : World) : WorldAction → Prop
  | .runtimeStops => w.available = true ∧ ∀ i, ¬ (w.context i).Shares
  | .construct _ _ none | .claim _ | .send .. => w.available = true
  | _ => True

/-- While it has a reference the application is up, and the contexts see it. -/
theorem Shared.held (h : Shared p) (hu : p.Unasked) (hne : p.holders ≠ []) :
    ∃ r, p.runtime = some r ∧ r.Up ∧ p.world.available = true := by
  obtain ⟨-, -, r, hr, hsucceeded, hgoes⟩ := h.up hne
  have hup := hu r hr hsucceeded hgoes
  refine ⟨r, hr, hup, ?_⟩
  rw [h.offered r hr, Runtime.offered, hup.isAvailable, Bool.or_true]

theorem Shared.isAvailable (h : Shared p) (hu : p.Unasked) (hi : (p.world.context i).Shares) :
    p.world.available = true := by
  obtain ⟨r, -, -, hav⟩ := h.held hu (List.ne_nil_of_mem ((h.members i).2 hi))
  exact hav

/-- A step of the contexts keeps to what the runtime is for them. -/
theorem allowed_supported {a : WorldAction} (h : Shared p) (hu : p.Unasked) (hallows : p.allows a = true)
    (hs : worldStep p.world a = some w') : Supported p.world a := by
  cases a with
  | construct i env error =>
    cases error with
    | none => cases hallows
    | some error => trivial
  | claim i =>
    obtain ⟨y, claimed, hb, -⟩ := worldStep_became hs (by simp)
    have hphase : (p.world.context i).phase = .claiming := by
      cases hb with
      | refused i error hx => exact hx
      | claimed i hx => exact hx
    exact h.isAvailable hu (i := i) (by simp [Context.Shares, hphase])
  | send i rc device =>
    obtain ⟨y, claimed, hb, -⟩ := worldStep_became hs (by simp)
    have hphase : (p.world.context i).phase = .sending := by
      cases hb with
      | unsent i rc device error hx => exact hx
      | sent i device hx ha => exact hx
    exact h.isAvailable hu (i := i) (by simp [Context.Shares, hphase])
  | runtimeStops => cases hallows
  | _ => trivial

@[simp] theorem contextsStep_world {a : WorldAction} (hs : p.contextsStep a = some p') :
    worldStep p.world a = some p'.world := by
  obtain ⟨w', hw, rfl⟩ := Option.map_eq_some_iff.1 hs
  rw [hw]
  dsimp only
  split
  · split <;> rfl
  · split <;> rfl
  · split <;> rfl
  · rfl

theorem refuse_supported {env : Env} {error : String} (hs : p.refuse i env error = some p') :
    ∃ a, Supported p.world a ∧ worldStep p.world a = some p'.world := by
  obtain ⟨w', hw, rfl⟩ := Option.map_eq_some_iff.1 hs
  exact ⟨.construct i env (some error), trivial, hw⟩

theorem grant_supported {env : Env} {config : Plugin.SpdkRuntimeConfig} (hav : p.world.available = true)
    (hs : p.grant i env config = some p') : ∃ a, Supported p.world a ∧ worldStep p.world a = some p'.world := by
  obtain ⟨w', hw, rfl⟩ := Option.map_eq_some_iff.1 hs
  exact ⟨.construct i env none, hav, hw⟩

theorem become_world (h : p.become r r' = some p') :
    p'.world = p.world ∨ r.isAvailable = true ∧ worldStep p.world .runtimeStops = some p'.world := by
  unfold Registry.become at h
  split at h
  · rename_i hturns
    obtain ⟨w', hw, rfl⟩ := Option.map_eq_some_iff.1 h
    exact .inr ⟨(Bool.and_eq_true_iff.1 hturns).1, hw⟩
  · cases h
    exact .inl rfl

theorem acquire_supported {env : Env} {requested : Except Exn Plugin.SpdkRuntimeConfig} (h : Shared p) (hu : p.Unasked)
    (hs : p.acquire i env requested = some p') :
    p'.world = p.world ∨ ∃ a, Supported p.world a ∧ worldStep p.world a = some p'.world := by
  unfold Registry.acquire at hs
  split at hs
  · exact .inr (refuse_supported hs)
  · split at hs
    · cases hs
    · split at hs
      · rename_i r x hs' hruntime hholders
        split at hs
        · obtain ⟨-, -, -, hav⟩ := h.held hu (by simp [hholders])
          exact .inr (grant_supported hav hs)
        · cases hs
          exact .inl rfl
      · split at hs
        · exact .inr (refuse_supported hs)
        · cases hs
          exact .inl rfl

theorem acquirer_supported (h : Shared p) (hu : p.Unasked) (hs : p.acquirerStep = some p') :
    p'.world = p.world ∨ ∃ a, Supported p.world a ∧ worldStep p.world a = some p'.world := by
  unfold Registry.acquirerStep at hs
  split at hs
  · cases hs
    exact .inl rfl
  · split at hs
    · cases hs
    · exact .inr (refuse_supported (p := { p with mutex := none }) hs)
  · rename_i i env requested r hmutex hruntime
    split at hs
    · cases hs
      exact .inl rfl
    · split at hs
      · rename_i hsucceeded
        obtain ⟨-, -, -, r', hr', hgoes⟩ := h.rising ⟨i, env, requested, _, hmutex, .inl rfl⟩
        obtain rfl : r = r' := by simpa [hruntime] using hr'
        refine .inr (grant_supported (p := { p with mutex := none }) ?_ hs)
        show p.world.available = true
        rw [h.offered r hruntime, Runtime.offered, (hu r hruntime hsucceeded hgoes).isAvailable, Bool.or_true]
      · cases hs
        exact .inl rfl
  · cases hs
    exact .inl rfl
  · split at hs
    · exact .inr (refuse_supported (p := { p with mutex := none, runtime := none }) hs)
    · cases hs
  · cases hs

theorem thread_supported {c : ThreadChoice} (hu : p.Unasked) (hs : p.threadStep strerror c = some p') :
    p'.world = p.world := by
  unfold Registry.threadStep at hs
  split at hs
  · cases hs
  · rename_i r hruntime
    split at hs
    · cases hs
    · obtain ⟨⟨r', notify⟩, hstep, hs⟩ := Option.bind_eq_some_iff.1 hs
      obtain ⟨q, hq, rfl⟩ := Option.map_eq_some_iff.1 hs
      rcases become_world hq with hw | ⟨hav, -⟩
      · cases notify <;> simpa using hw
      · -- an available application is up, and makes no step
        simp only [Runtime.isAvailable, Bool.and_eq_true, Bool.not_eq_true'] at hav
        rw [(hu r hruntime hav.1.1 hav.1.2).stays] at hstep
        cases hstep

theorem destructor_supported {rc : Int} (h : Shared p) (hs : p.destructorStep rc = some p') :
    p'.world = p.world ∨ ∃ a, Supported p.world a ∧ worldStep p.world a = some p'.world := by
  unfold Registry.destructorStep at hs
  split at hs
  · rename_i i t r hpc hruntime
    obtain ⟨hnil, -⟩ := h.unheld (by simp [hpc])
    split at hs
    · cases hs
    · obtain ⟨q, hq, rfl⟩ := Option.map_eq_some_iff.1 hs
      refine (become_world hq).imp id fun ⟨hav, hw⟩ => ⟨.runtimeStops, ⟨?_, fun j hj => ?_⟩, hw⟩
      · rw [h.offered r hruntime, Runtime.offered, hav, Bool.or_true]
      · have hm := (h.members j).2 hj
        rw [hnil] at hm
        cases hm
  · cases hs
    exact .inl rfl
  · split at hs
    · cases hs
      exact .inl rfl
    · cases hs
  · cases hs

/-- A step of the registry is at most one step of the contexts. -/
theorem registryStep_supported {a : RegistryAction} (h : Shared p) (hu : p.Unasked)
    (hs : registryStep strerror p a = some p') :
    p'.world = p.world ∨ ∃ b, Supported p.world b ∧ worldStep p.world b = some p'.world := by
  cases a with
  | acquire i env environment isFile config =>
    simp only [registryStep] at hs
    split at hs
    · split at hs
      · cases hs
      · exact acquire_supported h hu hs
    · cases hs
  | acquirer => exact acquirer_supported h hu hs
  | thread c => exact .inl (thread_supported hu hs)
  | world a =>
    simp only [registryStep] at hs
    split at hs
    · have hw := contextsStep_world hs
      exact .inr ⟨a, allowed_supported h hu ‹_› hw, hw⟩
    · cases hs
  | leave i t =>
    simp only [registryStep] at hs
    split at hs
    · cases hs
      exact .inl rfl
    · cases hs
  | destructor rc => exact destructor_supported h hs

/-- A context has the runtime, or a thread of one a copy of its `shared_ptr`. -/
def Registry.Needed (p : Registry) : Prop :=
  (∃ i, (p.world.context i).Shares) ∨ ∃ i t, .copy i t ∈ p.holders

theorem Registry.Needed.held (h : p.Needed) (hsh : Shared p) : p.holders ≠ [] := by
  rcases h with ⟨i, hi⟩ | ⟨i, t, hm⟩
  · exact List.ne_nil_of_mem ((hsh.members i).2 hi)
  · exact List.ne_nil_of_mem hm

/-- **The runtime outlives its contexts**: in every run, while a context has the runtime or a thread of one a copy of its
`shared_ptr`, the object is there, its destructor has not begun and has posted nothing, and what every context is told
is its `is_available()`. Where no worker has called `spdk_app_stop` for want of its acknowledgement, the application
runs then and nobody has asked it to stop; and for the contexts the run is one of their own in which the runtime stops
once, when none of them has it. -/
theorem runtime_outlives {as : List RegistryAction} (h : runFrom (registryStep strerror) {} as = some p) :
    (p.Needed → p.destructor = none ∧ ∃ r, p.runtime = some r ∧ r.initializationSucceeded = true ∧
      r.stopping = false ∧ r.stopCallbacks = 0 ∧
      ∀ i s releasing, (p.world.context i).phase = .live s releasing → s.runtimeAvailable = r.isAvailable) ∧
    (Guarded (registryStep strerror) (fun q a => q.acknowledges a = true) {} as →
      (p.Needed → p.world.available = true ∧
        ∃ r, p.runtime = some r ∧ r.isAvailable = true ∧ r.thread = .running none) ∧
      ∃ was, Guarded worldStep Supported {} was ∧ runFrom worldStep {} was = some p.world) := by
  have hsh : Shared p := run_invariant (fun _ _ _ hi _ hs => shared_step hi hs) init_shared (guarded_true _ _) h
  refine ⟨fun hneeded => ?_, fun hack => ⟨fun hneeded => ?_, ?_⟩⟩
  · obtain ⟨hnone, -, r, hr, hsucceeded, hgoes⟩ := hsh.up (hneeded.held hsh)
    refine ⟨hnone, r, hr, hsucceeded, hgoes, (hsh.steady r hr).callbacks hgoes, fun i s releasing hi => ?_⟩
    rw [hsh.told i s releasing hi, hsh.offered r hr, Runtime.offered, hsucceeded]
    rfl
  · obtain ⟨-, hu⟩ : Shared p ∧ p.Unasked :=
      run_invariant (I := fun q => Shared q ∧ q.Unasked)
        (fun _ _ _ hi ha hs => ⟨shared_step hi.1 hs, unasked_step hi.1 hi.2 ha hs⟩)
        ⟨init_shared, by simp [Registry.Unasked]⟩ hack h
    obtain ⟨r, hr, hup, hav⟩ := hsh.held hu (hneeded.held hsh)
    exact ⟨hav, r, hr, hup.isAvailable, hup.thread⟩
  · exact run_simulated Registry.world
      (fun _ _ _ (hi : Shared _ ∧ Registry.Unasked _) ha hs =>
        ⟨⟨shared_step hi.1 hs, unasked_step hi.1 hi.2 ha hs⟩, registryStep_supported hi.1 hi.2 hs⟩)
      ⟨init_shared, by simp [Registry.Unasked]⟩ hack h

/-- What every context asks for in the runs below. -/
def plainConfig (ioThreadCount : Int) : Plugin.SpdkConfig :=
  { jsonConfigFile := Codec.text "spdk.json", coreMask := "0x3", memorySizeMb := 512, noHuge := true, noPci := true
    ioThreadCount }

def acquireWith (ioThreadCount : Int) (i : Nat) (bdevName : String) : RegistryAction :=
  .acquire i { smallEnv with bdevName } ⟨none, none, none, Codec.text "/etc"⟩ true (plainConfig ioThreadCount)

def plainAcquire (i : Nat) (bdevName : String) : RegistryAction := acquireWith 1 i bdevName

/-- Steps of the machine of context `i`. -/
def contextRun (i : Nat) (as : List Action) : List RegistryAction := as.map fun a => .world (.context i a)

/-- The application starts for context 0, whose bdev is `"bdev"`. -/
def runtimeRun (ioThreadCount : Int) : List RegistryAction :=
  [acquireWith ioThreadCount 0 "bdev", .acquirer, .thread .next, .thread .next, .thread (.appStart true), .acquirer,
    .world (.claim 0), .world (.send 0 0 Nat.toUInt8)]

/-- And the context opens it. -/
def startingRun : List RegistryAction := runtimeRun 1 ++ contextRun 0 openRun

/-- Context `i` is closed, and its thread gives up the copies it has taken. -/
def closingRun (i : Nat) : List RegistryAction :=
  contextRun i [.owner .next, .owner .next, .owner .next, .owner (.code 0)] ++ [.leave i .owner] ++
  contextRun i (teardownRun ++ [.owner .next, .owner .next]) ++ [.world (.release i), .leave i .owner]

/-- Context 1 gets the runtime too, and context 0 is closed. -/
theorem runtime_outlives_one : ∃ p,
    runFrom (registryStep fun _ => "") {} (startingRun ++ plainAcquire 1 "other" :: closingRun 0) = some p ∧
    p.holders = [.member 1] ∧ p.destructor = none ∧ p.world.available = true := by
  have hrun : (runFrom (registryStep fun _ => "") {} (startingRun ++ plainAcquire 1 "other" :: closingRun 0)).any
      (fun p => decide (p.holders = [.member 1])) = true := by decide +kernel
  have hguard : Guarded (registryStep fun _ => "") (fun p a => p.acknowledges a = true) {}
      (startingRun ++ plainAcquire 1 "other" :: closingRun 0) := by decide +kernel
  obtain ⟨p, hp, hlast⟩ := (Option.any_eq_true _ _).1 hrun
  have hholders : p.holders = [.member 1] := of_decide_eq_true hlast
  have hsh : Shared p := run_invariant (fun _ _ _ hi _ hs => shared_step hi hs) init_shared (guarded_true _ _) hp
  have hneeded : p.Needed := .inl ⟨1, (hsh.members 1).1 (by simp [hholders])⟩
  exact ⟨p, hp, hholders, ((runtime_outlives hp).1 hneeded).1, (((runtime_outlives hp).2 hguard).1 hneeded).1⟩

/-- Context 0 has two workers; it is closed, and the second one cannot post its acknowledgement. -/
def unacknowledgedRun : List RegistryAction :=
  runtimeRun 2 ++
  contextRun 0 [.reactor 0 .message, .reactor 0 (.code 0), .reactor 0 .next, .reactor 0 (.code 0), .reactor 0 .next,
    .reactor 0 (.setUp true true 1), .reactor 0 .next, .reactor 1 .message, .reactor 1 (.setUp true true 1),
    .reactor 1 .next, .reactor 1 .next, .owner .next, .owner .next, .owner .next, .owner .next, .owner (.code 0)] ++
  [.leave 0 .owner] ++
  contextRun 0 [.reactor 0 .message, .reactor 0 .next, .reactor 0 (.code 0), .reactor 1 .message, .reactor 1 .next,
    .reactor 1 .next, .reactor 1 (.code (-12)), .reactor 1 .next] ++
  [acquireWith 2 1 "other", .thread (.appReturns (-12)), .thread .next]

/-- The application ends under both contexts. -/
theorem application_stopped : ∃ p r, runFrom (registryStep fun _ => "") {} unacknowledgedRun = some p ∧
    p.holders = [.member 1, .member 0] ∧ p.runtime = some r ∧ r.isAvailable = false := by
  have hrun : (runFrom (registryStep fun _ => "") {} unacknowledgedRun).any (fun p =>
      decide (p.holders = [.member 1, .member 0]) && p.runtime.any fun r => !r.isAvailable) = true := by decide +kernel
  obtain ⟨p, hp, hall⟩ := (Option.any_eq_true _ _).1 hrun
  obtain ⟨hholders, hobject⟩ := Bool.and_eq_true_iff.1 hall
  obtain ⟨r, hr, hgone⟩ := (Option.any_eq_true _ _).1 hobject
  exact ⟨p, r, hp, of_decide_eq_true hholders, hr, by simpa using hgone⟩

end SpdkRuntime
end SpdkConnector
