import SpdkConnector.Context.Backpressure

/-!
# `drain_pending_io` (spdk/spdk_bdev_context.cpp:941)

The loop of a drain executes requests, and each may give its buffer back, complete, and call `drain_pending_io`
again.  That call finds `draining_pending_io` set and returns, so above the loop's frame there is one iteration
(`Iteration`) and nothing deeper.  No iteration appends to `pending_io`: the loop executes a request only where a
buffer is free, and the one way to append is to find none.  So the queue a drain starts with is what it has popped
and what is left of it, and a budget of five steps a request and two for the call pays for every step.

While a drain is under way the other threads take their steps; they reach the worker's pool only to release it.
-/

namespace SpdkConnector
namespace SpdkBdevContext

open Interleaving

variable {e : Env} {s s' : Sys} {κ κ' : Core} {w v : Nat} {x y : Reactor} {rest : List Frame}

/-! ## One loop -/

/-- The loop of `drain_pending_io`. -/
def Frame.looping : Frame → Bool
  | .io (.drainLoop _) => true
  | _ => false

theorem countP_drainLoop (st : List Frame) :
    (Frame.io (.drainLoop v) :: st).countP Frame.looping = st.countP Frame.looping + 1 :=
  List.countP_cons_of_pos rfl

/-- The flag says whether a drain loop is on the stack, and there is one at most. -/
def Reactor.Looped (x : Reactor) : Prop :=
  x.stack.countP Frame.looping = if x.drainingPendingIo then 1 else 0

theorem Reactor.Looped.congr (h : x.Looped) (h1 : y.stack = x.stack) (h2 : y.drainingPendingIo = x.drainingPendingIo) :
    y.Looped := by
  rw [Reactor.Looped, h1, h2]
  exact h

/-- Calls that are no drain loop. -/
theorem Reactor.Looped.push {f : Frame} (fs : List Frame) (h : x.Looped) (hst : x.stack = f :: rest)
    (hf : f.looping = false) (hfs : ∀ g ∈ fs, g.looping = false) (h1 : y.stack = fs ++ rest)
    (h2 : y.drainingPendingIo = x.drainingPendingIo) : y.Looped := by
  have hnone : fs.countP Frame.looping = 0 := List.countP_eq_zero.2 fun g hg => by simp [hfs g hg]
  rw [Reactor.Looped, hst, List.countP_cons_of_neg (by simp [hf])] at h
  rw [Reactor.Looped, h1, h2, List.countP_append, hnone, Nat.zero_add, h]

theorem parked_looped {r : Ref} {fs : List IoFrame} (h : x.Looped) (hst : x.stack = .io (.executeIo r) :: rest)
    (hp : Parked r w { x with stack := rest } y fs) : Reactor.Looped { y with stack := fs.map .io ++ rest } := by
  cases hp with
  | starved | waiting | retried => exact h.push [] hst rfl nofun rfl rfl
  | failed error => exact h.push [_, _] hst rfl (by simp [Frame.looping]) rfl rfl

theorem done_looped {f : IoFrame} {fs : List IoFrame} (h : x.Looped) (hst : x.stack = .io f :: rest)
    (hdone : Done w { x with stack := rest } f y fs) : Reactor.Looped { y with stack := fs.map .io ++ rest } := by
  cases hdone with
  | parked r dma y fs hp => exact parked_looped (x := { x with dma }) (h.congr rfl rfl) hst hp
  | completed r success error fs hfs =>
    refine h.push (fs.map .io) hst rfl ?_ rfl rfl
    rcases hfs with rfl | rfl <;> simp [Frame.looping]
  | dispatched | accepted | notified | nested => exact h.push [] hst rfl nofun rfl rfl
  | dispatch | fired | freed | released =>
    refine h.push (List.map Frame.io _) hst rfl ?_ rfl rfl
    simp [Frame.looping]
  | drains hn =>
    -- the first loop: there was none
    have hnone : rest.countP Frame.looping = 0 := by
      simpa [Reactor.Looped, hst, Frame.looping, show x.drainingPendingIo = false from hn] using h
    show (Frame.io (.drainLoop w) :: rest).countP Frame.looping = 1
    rw [countP_drainLoop, hnone]
  | popped r tail hp ha =>
    rw [Reactor.Looped, hst, countP_drainLoop] at h
    show (Frame.io (.executeIo r) :: .io (.drainLoop w) :: rest).countP Frame.looping = _
    rw [List.countP_cons_of_neg (by simp [Frame.looping]), countP_drainLoop]
    exact h
  | drained hd =>
    -- the loop itself returns, so no other was under it
    rw [Reactor.Looped, hst, countP_drainLoop] at h
    show rest.countP Frame.looping = 0
    split at h
    · exact Nat.succ.inj h
    · cases h

theorem tended_looped {f : LifeFrame} {c : Choice} {fs : List Frame} (h : x.Looped) (hst : x.stack = .life f :: rest)
    (ht : Tended w { x with stack := rest } f c y fs) : Reactor.Looped { y with stack := fs ++ rest } := by
  have hlife : ∀ fs : List LifeFrame, ∀ g ∈ fs.map Frame.life, g.looping = false := by
    intro fs g hg
    obtain ⟨g', -, rfl⟩ := List.mem_map.1 hg
    rfl
  cases ht with
  | quiet f fs | posted f fs | released fs => exact h.push (fs.map .life) hst rfl (hlife fs) rfl rfl
  | setUp | own | cut | flushed | flushedAll =>
    refine h.push _ hst rfl ?_ rfl rfl
    simp [Frame.looping]

/-- **Every step keeps one drain loop at most.** -/
theorem acted_looped {a : Action} (h : (s.reactor v).Looped) (ha : Acted s v a y) : y.Looped := by
  have hidle : (s.reactor v).stack = [] → (s.reactor v).drainingPendingIo = false := by
    intro hst
    cases hd : (s.reactor v).drainingPendingIo with
    | false => rfl
    | true =>
      rw [Reactor.Looped, hst, hd] at h
      cases h
  have hstart : ∀ (f : Frame) (z : Reactor), f.looping = false → (s.reactor v).stack = [] → z.stack = [f] →
      z.drainingPendingIo = (s.reactor v).drainingPendingIo → z.Looped := by
    intro f z hf hst hz hd
    simp [Reactor.Looped, hz, hd, hidle hst, hf]
  cases ha with
  | same => exact h
  | dispatch | posted | moved => exact h.congr rfl rfl
  | message m rest hst hq => exact hstart m.frame _ (by cases m <;> rfl) hst rfl rfl
  | completion k success c hst => exact hstart _ _ rfl hst rfl rfl
  | ioWait k r hst => exact hstart _ _ rfl hst rfl rfl
  | event c rc error hst => exact hstart _ _ rfl hst rfl rfl
  | io c f rest y fs hst hdone => exact done_looped h hst hdone
  | life c f rest y fs hst ht => exact tended_looped h hst ht
  | reached u c f rest y hu hst hr =>
    cases hr with
    | same => exact h
    | posted | cut => exact h.congr rfl rfl

theorem init_looped (device : Nat → UInt8) (v : Nat) : ((Sys.init device).reactor v).Looped := by
  rcases eq_or_ne v 0 with rfl | hv
  · rfl
  · simp [Sys.init, hv, Reactor.Looped]

/-! ## One drain -/

/-- What an iteration has put on the loop's frame, with the steps it may still take. -/
inductive Iteration (w : Nat) (p : SpdkBufferPool) : List IoFrame → Nat → Prop
  | done : Iteration w p [] 0
  | execute (r : Ref) (h : p.freeIndexes ≠ [] ∨ p.initialized = false) : Iteration w p [.executeIo r] 4
  | complete (r : Ref) (success : Bool) (error : String) :
      Iteration w p [.completeRequest r success error, .drainPendingIo w] 3
  | notify (b : Nat) : Iteration w p [.notifyOne b, .drainPendingIo w] 2
  | nested : Iteration w p [.drainPendingIo w] 1

/-- Where a drain of the queue `initial` is that was called over the frames `rest`, what it has popped, and how many
steps it may still take. -/
inductive Draining (w : Nat) (rest : List Frame) (initial popped : List Ref) (x : Reactor) : Nat → Prop
  | entered (hst : x.stack = .io (.drainPendingIo w) :: rest) (hflag : x.drainingPendingIo = false)
      (hpopped : popped = []) (hq : x.pendingIo = initial) : Draining w rest initial popped x (5 * initial.length + 2)
  | looping (fs : List IoFrame) (n : Nat) (hfs : Iteration w x.pool fs n)
      (hst : x.stack = fs.map .io ++ .io (.drainLoop w) :: rest) (hflag : x.drainingPendingIo = true)
      (hq : popped ++ x.pendingIo = initial) :
      Draining w rest initial popped x (n + (5 * x.pendingIo.length + 1))
  | returned (hst : x.stack = rest) (hflag : x.drainingPendingIo = false) (hd : x.Drained)
      (hq : popped ++ x.pendingIo = initial) : Draining w rest initial popped x 0

/-- The request the loop pops when it goes on. -/
def Reactor.pops (x : Reactor) : List Ref :=
  match x.stack, x.pendingIo with
  | .io (.drainLoop _) :: _, r :: _ => if x.pool.available ≠ 0 then [r] else []
  | _, _ => []

/-- A step of worker `w`'s thread. -/
def Action.of (w : Nat) : Action → Bool
  | .reactor v _ => v == w
  | _ => false

/-- The request an iteration of worker `w` pops in a step. -/
def poppedIn (w : Nat) (s : Sys) (a : Action) : List Ref := if a.of w then (s.reactor w).pops else []

/-- The drain has not returned. -/
def Unreturned (w : Nat) (rest : List Frame) (s : Sys) (_ : Action) : Prop :=
  rest.length < (s.reactor w).stack.length

instance (w : Nat) (rest : List Frame) (s : Sys) (a : Action) : Decidable (Unreturned w rest s a) :=
  inferInstanceAs (Decidable (rest.length < (s.reactor w).stack.length))

/-- What a step of another thread does to a worker: it may release the pool, and leaves what a drain goes by. -/
theorem acted_other {a : Action} (ha : Acted s v a y) (hnot : a.of v = false) :
    y.stack = (s.reactor v).stack ∧ y.drainingPendingIo = (s.reactor v).drainingPendingIo ∧
    y.pendingIo = (s.reactor v).pendingIo ∧ (y.pool = (s.reactor v).pool ∨ y.pool = {}) := by
  have hown : ∀ c, Action.of v (.reactor v c) = false → False := by
    intro c hc
    simp [Action.of] at hc
  cases ha with
  | same | dispatch | posted | moved => exact ⟨rfl, rfl, rfl, .inl rfl⟩
  | message | completion | ioWait | event | io | life => exact (hown _ hnot).elim
  | reached u c f rest y hu hst hr =>
    cases hr with
    | same | posted => exact ⟨rfl, rfl, rfl, .inl rfl⟩
    | cut => exact ⟨rfl, rfl, rfl, .inr rfl⟩

theorem Iteration.emptied {p : SpdkBufferPool} {fs : List IoFrame} {n : Nat} (h : Iteration w p fs n) :
    Iteration w {} fs n := by
  cases h with
  | done => exact .done
  | execute r => exact .execute r (.inr rfl)
  | complete r success error => exact .complete r success error
  | notify b => exact .notify b
  | nested => exact .nested

theorem Draining.other {initial popped : List Ref} {n : Nat} (h : Draining w rest initial popped x n)
    (h1 : y.stack = x.stack) (h2 : y.drainingPendingIo = x.drainingPendingIo) (h3 : y.pendingIo = x.pendingIo)
    (h4 : y.pool = x.pool ∨ y.pool = {}) : Draining w rest initial popped y n := by
  cases h with
  | entered hst hflag hpopped hq => exact .entered (h1.trans hst) (h2.trans hflag) hpopped (h3.trans hq)
  | looping fs n hfs hst hflag hq =>
    rw [← h3]
    refine .looping fs n ?_ (h1.trans hst) (h2.trans hflag) (h3 ▸ hq)
    rcases h4 with h4 | h4
    · rw [h4]
      exact hfs
    · rw [h4]
      exact hfs.emptied
  | returned hst hflag hd hq =>
    refine .returned (h1.trans hst) (h2.trans hflag) ?_ (h3 ▸ hq)
    rcases hd with hd | hd
    · exact .inl (h3.trans hd)
    · rcases h4 with h4 | h4
      · exact .inr (h4 ▸ hd)
      · exact .inr (by rw [h4])

/-- A step inside an iteration: the queue stays as it is, and what is left of the iteration shrinks. -/
theorem Iteration.step {f : IoFrame} {fs gs : List IoFrame} {n : Nat} (h : Iteration w x.pool (f :: fs) n)
    (hflag : x.drainingPendingIo = true) (hdone : Done w x f y gs) :
    ∃ m, Iteration w y.pool (gs ++ fs) m ∧ m + 1 ≤ n ∧ y.pendingIo = x.pendingIo ∧ y.drainingPendingIo = true := by
  cases h with
  | execute r hfree =>
    cases hdone with
    | parked r dma y fs hp =>
      cases hp with
      | starved hini hnone =>
        -- the loop saw a buffer, and nobody but the teardown has taken it since
        rcases hfree with hfree | hfree
        · exact absurd hnone hfree
        · rw [show x.pool.initialized = true from hini] at hfree
          cases hfree
      | waiting | retried => exact ⟨0, .done, by omega, rfl, hflag⟩
      | failed error => exact ⟨3, .complete r false error, by omega, rfl, hflag⟩
    | accepted => exact ⟨0, .done, by omega, rfl, hflag⟩
  | complete r success error =>
    cases hdone with
    | completed r success error gs hgs =>
      rcases hgs with rfl | rfl
      · exact ⟨1, .nested, by omega, rfl, hflag⟩
      · exact ⟨2, .notify r.1, by omega, rfl, hflag⟩
  | notify b =>
    cases hdone with
    | notified => exact ⟨1, .nested, by omega, rfl, hflag⟩
  | nested =>
    cases hdone with
    | nested => exact ⟨0, .done, by omega, rfl, hflag⟩
    | drains hno =>
      rw [hflag] at hno
      cases hno

/-- A step of the loop: it pops a request and executes it, or is done. -/
theorem drainLoop_step {initial popped : List Ref} {fs : List IoFrame} {st : List Frame}
    (hst : x.stack = .io (.drainLoop v) :: st) (hq : popped ++ x.pendingIo = initial)
    (hflag : x.drainingPendingIo = true) (hdone : Done w { x with stack := rest } (.drainLoop v) y fs) :
    ∃ m, Draining w rest initial (popped ++ x.pops) { y with stack := fs.map .io ++ rest } m ∧
      m + 1 ≤ 5 * x.pendingIo.length + 1 := by
  cases hdone with
  | popped r tail hp ha =>
    have hp : x.pendingIo = r :: tail := hp
    have havailable : x.pool.available ≠ 0 := fun h => ha (List.length_eq_zero_iff.1 h)
    have hpops : x.pops = [r] := by simp [Reactor.pops, hst, hp, havailable]
    rw [hp] at hq
    refine ⟨_, .looping [.executeIo r] 4 (.execute r (.inl ha)) rfl hflag ?_, ?_⟩
    · rw [hpops, List.append_assoc]
      exact hq
    · rw [hp, List.length_cons]
      show 4 + (5 * tail.length + 1) + 1 ≤ _
      omega
  | drained hd =>
    have hpops : x.pops = [] := by
      rcases hd with hd | hd
      · have hd : x.pendingIo = [] := hd
        simp [Reactor.pops, hst, hd]
      · have hd : x.pool.available = 0 := congrArg List.length hd
        unfold Reactor.pops
        split
        · rw [if_neg (not_not.2 hd)]
        · rfl
    refine ⟨0, .returned rfl rfl hd ?_, by omega⟩
    rw [hpops, List.append_nil]
    exact hq

theorem Draining.own {initial popped : List Ref} {n : Nat} {f : IoFrame} {fs : List IoFrame} {st : List Frame}
    (h : Draining w rest initial popped x n) (hin : rest.length < x.stack.length) (hst : x.stack = .io f :: st)
    (hdone : Done w { x with stack := st } f y fs) :
    ∃ m, Draining w rest initial (popped ++ x.pops) { y with stack := fs.map .io ++ st } m ∧ m + 1 ≤ n := by
  have hquiet : (∀ v, f ≠ .drainLoop v) → x.pops = [] := by
    intro hf
    unfold Reactor.pops
    split
    · rename_i v st' r tail hst' _
      rw [hst] at hst'
      cases hst'
      exact absurd rfl (hf v)
    · rfl
  cases h with
  | entered hst' hflag hpopped hq =>
    rw [hst] at hst'
    cases hst'
    rw [hquiet nofun, List.append_nil, hpopped]
    cases hdone with
    | nested hdr =>
      rw [show x.drainingPendingIo = true from hdr] at hflag
      cases hflag
    | drains =>
      refine ⟨_, .looping [] 0 .done rfl rfl hq, ?_⟩
      show 0 + (5 * x.pendingIo.length + 1) + 1 ≤ _
      rw [hq]
      omega
  | looping gs n hgs hst' hflag hq =>
    cases gs with
    | nil =>
      rw [hst] at hst'
      cases hst'
      obtain ⟨m, hm, hle⟩ := drainLoop_step hst hq hflag hdone
      exact ⟨m, hm, by omega⟩
    | cons g gs =>
      rw [hst] at hst'
      cases hst'
      obtain ⟨m, hit, hle, hpending, hflag'⟩ := Iteration.step
        (x := { x with stack := gs.map .io ++ .io (.drainLoop w) :: rest }) hgs hflag hdone
      have hf : ∀ v, f ≠ .drainLoop v := by
        rintro v rfl
        cases hgs
      rw [hquiet hf, List.append_nil]
      refine ⟨_, .looping (fs ++ gs) m hit ?_ hflag' ?_, ?_⟩
      · simp
      · show popped ++ y.pendingIo = initial
        rw [hpending]
        exact hq
      · show m + (5 * y.pendingIo.length + 1) + 1 ≤ _
        rw [hpending]
        show m + (5 * x.pendingIo.length + 1) + 1 ≤ _
        omega
  | returned hst' =>
    rw [hst'] at hin
    exact absurd hin (Nat.lt_irrefl _)

/-- **What a step does to a drain that has not returned.** -/
theorem step_draining (ht : Tracks s κ) (hc : Consistent e κ) {initial popped : List Ref} {n : Nat} {a : Action}
    (h : Draining w rest initial popped (s.reactor w) n) (hin : Unreturned w rest s a) (hs : step e s a = some s') :
    ∃ m, Draining w rest initial (popped ++ poppedIn w s a) (s'.reactor w) m ∧ m + (if a.of w then 1 else 0) ≤ n := by
  cases hown : a.of w with
  | false =>
    obtain ⟨h1, h2, h3, h4⟩ := acted_other (step_acted ht hc hs w) hown
    refine ⟨n, ?_, by simp⟩
    simpa [poppedIn, hown] using h.other h1 h2 h3 h4
  | true =>
    obtain ⟨c, rfl⟩ : ∃ c, a = .reactor w c := by
      cases a <;> simp [Action.of] at hown
      exact ⟨_, by rw [hown]⟩
    simp only [step] at hs
    split at hs
    · obtain ⟨f, st, hst⟩ : ∃ f st, (s.reactor w).stack = .io f :: st := by
        cases h with
        | entered hst => exact ⟨_, _, hst⟩
        | looping gs n hgs hst =>
          cases gs with
          | nil => exact ⟨_, _, hst⟩
          | cons g gs => exact ⟨_, _, hst⟩
        | returned hst =>
          rw [Unreturned, hst] at hin
          exact absurd hin (Nat.lt_irrefl _)
      obtain ⟨y, fs, hreactor, hdone⟩ := reactorStep_io ht hc hst hs
      obtain ⟨m, hm, hle⟩ := h.own hin hst hdone
      refine ⟨m, ?_, by simpa using hle⟩
      rw [hreactor, Function.update_self]
      simpa [poppedIn, hown] using hm
    · cases hs

/-- A drain that has not returned can always go on, whatever its submission answers. -/
theorem draining_enabled {initial popped : List Ref} {n : Nat}
    (h : Draining w rest initial popped (s.reactor w) n) (hin : rest.length < (s.reactor w).stack.length)
    (submitResult waitResult sendResult : Int) :
    ∃ c, (c = .next ∨ c = .submit submitResult waitResult sendResult) ∧ (step e s (.reactor w c)).isSome = true := by
  cases h with
  | entered hst =>
    refine ⟨.next, .inl rfl, ?_⟩
    simp only [step, completionAllowed, if_true, reactorStep, hst, runFrame, runIo]
    split <;> rfl
  | looping gs n hgs hst =>
    cases hgs with
    | done =>
      refine ⟨.next, .inl rfl, ?_⟩
      simp only [step, completionAllowed, if_true, reactorStep, hst, List.map_nil, List.nil_append, runFrame, runIo]
      split
      · split <;> rfl
      · rfl
    | execute r =>
      refine ⟨.submit submitResult waitResult sendResult, .inr rfl, ?_⟩
      simp only [step, completionAllowed, if_true, reactorStep, hst, List.map_cons, List.cons_append, runFrame, runIo]
      rfl
    | complete r success error =>
      refine ⟨.next, .inl rfl, ?_⟩
      simp only [step, completionAllowed, if_true, reactorStep, hst, List.map_cons, List.cons_append, runFrame, runIo]
      rfl
    | notify | nested =>
      refine ⟨.next, .inl rfl, ?_⟩
      simp only [step, completionAllowed, if_true, reactorStep, hst, List.map_cons, List.cons_append, runFrame, runIo]
      split <;> rfl
  | returned hst =>
    rw [hst] at hin
    exact absurd hin (Nat.lt_irrefl _)

/-- **What a run does to a drain**: its budget pays for the steps of its thread. -/
theorem run_draining {t : Sys} {initial popped : List Ref} {n : Nat} {bs : List Action} (ht : Tracks s κ)
    (hc : Consistent e κ) (h : Draining w rest initial popped (s.reactor w) n)
    (hok : Guarded (step e) (Unreturned w rest) s bs) (hrun : runFrom (step e) s bs = some t) :
    ∃ κ' m, Tracks t κ' ∧ Draining w rest initial (popped ++ observed (step e) (poppedIn w) s bs) (t.reactor w) m ∧
      m + bs.countP (Action.of w) ≤ n := by
  induction bs generalizing s κ popped n with
  | nil =>
    cases hrun
    refine ⟨κ, n, ht, ?_, Nat.le_refl n⟩
    simpa [observed] using h
  | cons a bs ih =>
    obtain ⟨s1, h1, h2⟩ := runFrom_cons hrun
    obtain ⟨κ1, hm, ht1, -⟩ := step_follows ht hc h1
    obtain ⟨m, hdrain, hle⟩ := step_draining ht hc h hok.1 h1
    obtain ⟨κ', m', ht', hdrain', hle'⟩ := ih ht1 (moves_consistent hc hm) hdrain (hok.2 s1 h1) h2
    refine ⟨κ', m', ht', ?_, ?_⟩
    · rw [observed, h1, Option.elim_some, ← List.append_assoc]
      exact hdrain'
    · rw [List.countP_cons]
      omega

/-- What holds of a drain called over `rest` in `s`, in the state `t` the steps `bs` lead to. -/
structure DrainBound (e : Env) (w : Nat) (rest : List Frame) (s t : Sys) (bs : List Action) : Prop where
  /-- The queue it found is what it has popped and what is left. -/
  queue : observed (step e) (poppedIn w) s bs ++ (t.reactor w).pendingIo = (s.reactor w).pendingIo
  iterations : (observed (step e) (poppedIn w) s bs).length ≤ (s.reactor w).pendingIo.length
  gone : ∀ r ∈ observed (step e) (poppedIn w) s bs, r ∉ (t.reactor w).pendingIo
  steps : bs.countP (Action.of w) ≤ 5 * (s.reactor w).pendingIo.length + 2
  depth : (t.reactor w).stack.length ≤ rest.length + 3
  enabled : rest.length < (t.reactor w).stack.length → ∀ submitResult waitResult sendResult,
    ∃ c, (c = .next ∨ c = .submit submitResult waitResult sendResult) ∧ (step e t (.reactor w c)).isSome = true
  ended : (t.reactor w).stack.length ≤ rest.length →
    (t.reactor w).stack = rest ∧ (t.reactor w).drainingPendingIo = false ∧
    ((t.reactor w).pendingIo = [] ∨ (t.reactor w).pool.available = 0)

theorem Draining.queue_eq {initial popped : List Ref} {n : Nat} (h : Draining w rest initial popped x n) :
    popped ++ x.pendingIo = initial := by
  cases h with
  | entered hst hflag hpopped hq => rw [hpopped, hq, List.nil_append]
  | looping gs n hgs hst hflag hq => exact hq
  | returned hst hflag hd hq => exact hq

theorem Draining.depth {initial popped : List Ref} {n : Nat} (h : Draining w rest initial popped x n) :
    x.stack.length ≤ rest.length + 3 := by
  cases h with
  | entered hst => simp [hst]
  | looping gs n hgs hst =>
    rw [hst]
    cases hgs <;> simp
  | returned hst => simp [hst]

theorem Draining.ended {initial popped : List Ref} {n : Nat} (h : Draining w rest initial popped x n)
    (hlen : x.stack.length ≤ rest.length) :
    x.stack = rest ∧ x.drainingPendingIo = false ∧ (x.pendingIo = [] ∨ x.pool.available = 0) := by
  cases h with
  | entered hst => simp [hst] at hlen
  | looping gs n hgs hst =>
    rw [hst] at hlen
    simp only [List.length_append, List.length_cons] at hlen
    omega
  | returned hst hflag hd => exact ⟨hst, hflag, hd.imp id (congrArg List.length)⟩

/-- A call of `drain_pending_io` under a drain loop returns at once. -/
theorem nested_step (hst : (s.reactor w).stack = .io (.drainPendingIo w) :: rest)
    (hflag : (s.reactor w).drainingPendingIo = true) :
    (step e s (.reactor w .next)).map (·.reactor w) = some { s.reactor w with stack := rest } := by
  simp [step, completionAllowed, reactorStep, hst, runFrame, runIo, Sys.setReactor, hflag]

/-- No request is queued twice. -/
theorem pending_nodup (ht : Tracks s κ) : (s.reactor w).pendingIo.Nodup := by
  rw [List.nodup_iff_count_le_one]
  intro r
  have hkept := kept_count ht (w := w) r
  rw [Reactor.kept, List.count_append] at hkept
  omega

/-- **Draining terminates without recursion.**  In every reachable state a worker has one drain loop at most, and a
call of `drain_pending_io` under a loop returns at once.  Any other call, whatever its submissions answer and however
the other threads interleave, pops each request it found once and appends none, takes five steps a request and
two more at most, can take its next step until it returns, and returns with `pending_io` empty or no buffer available. -/
theorem drain_terminates {device : Nat → UInt8} {as : List Action}
    (h : runFrom (step e) (Sys.init device) as = some s) :
    (∀ w, (s.reactor w).stack.countP Frame.looping = if (s.reactor w).drainingPendingIo then 1 else 0) ∧
    (∀ w rest, (s.reactor w).stack = .io (.drainPendingIo w) :: rest → (s.reactor w).drainingPendingIo = true →
      rest.countP Frame.looping = 1 ∧
      (step e s (.reactor w .next)).map (·.reactor w) = some { s.reactor w with stack := rest }) ∧
    ∀ w rest bs t, (s.reactor w).stack = .io (.drainPendingIo w) :: rest → (s.reactor w).drainingPendingIo = false →
      Guarded (step e) (Unreturned w rest) s bs → runFrom (step e) s bs = some t → DrainBound e w rest s t bs := by
  obtain ⟨⟨κ, ht, hc⟩, hlooped⟩ := run_invariant
    (I := fun s => (∃ κ, Tracks s κ ∧ Consistent e κ) ∧ ∀ w, (s.reactor w).Looped)
    (by
      rintro s a s' ⟨⟨κ, ht, hc⟩, hl⟩ - hs
      obtain ⟨κ', hm, ht', -⟩ := step_follows ht hc hs
      exact ⟨⟨κ', ht', moves_consistent hc hm⟩, fun w => acted_looped (hl w) (step_acted ht hc hs w)⟩)
    ⟨⟨_, init_tracks device, init_consistent e device⟩, init_looped device⟩ (guarded_true _ as) h
  refine ⟨hlooped, ?_, ?_⟩
  · intro w rest hst hflag
    have hloop := hlooped w
    rw [Reactor.Looped, hst, hflag, List.countP_cons_of_neg (by simp [Frame.looping])] at hloop
    exact ⟨hloop, nested_step hst hflag⟩
  · intro w rest bs t hst hflag hok hrun
    obtain ⟨κ', m, ht', hdrain, hle⟩ := run_draining ht hc (.entered hst hflag rfl rfl) hok hrun
    rw [List.nil_append] at hdrain
    have hqueue := hdrain.queue_eq
    refine ⟨hqueue, ?_, ?_, by omega, hdrain.depth, draining_enabled hdrain, hdrain.ended⟩
    · rw [← hqueue, List.length_append]
      omega
    · intro r hr hmem
      have hnodup := pending_nodup ht (w := w)
      rw [← hqueue, List.nodup_append] at hnodup
      exact hnodup.2.2 r hr r hmem rfl

/-- The first read fails: its buffer is given back, and its completion calls the drain. -/
def drainRun : List Action :=
  starvedRun ++ [.reactor 0 (.completion 0 false), .reactor 0 .next, .reactor 0 .next, .reactor 0 .next]

/-- The drain pops the second read, which is accepted. -/
def drainSteps : List Action :=
  [.reactor 0 .next, .reactor 0 .next, .reactor 0 (.submit 0 0 0), .reactor 0 .next]

theorem drain_terminates_starved : ∃ s t, runFrom (step smallEnv) (Sys.init Nat.toUInt8) drainRun = some s ∧
    runFrom (step smallEnv) s drainSteps = some t ∧ (s.reactor 0).pendingIo = [(0, 1)] ∧
    (t.reactor 0).stack = [] ∧ DrainBound smallEnv 0 [] s t drainSteps := by
  have hrun : runFrom (step smallEnv) (Sys.init Nat.toUInt8) drainRun = some _ := rfl
  obtain ⟨-, -, hdrain⟩ := drain_terminates hrun
  exact ⟨_, _, hrun, rfl, rfl, rfl, hdrain 0 [] drainSteps _ rfl rfl (by decide +kernel) rfl⟩

end SpdkBdevContext
end SpdkConnector
