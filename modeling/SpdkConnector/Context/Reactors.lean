import SpdkConnector.Context.Refinement
import SpdkConnector.Context.Lifecycle

/-!
# What a step does to a reactor

The step function inverted, one reactor at a time: `Done` for the I/O callbacks, `Tended` and `Reached` for
the life cycle, `Acted` for every step of the context. The invariants of the workers' queues are derived
from it, and nothing below unfolds the step function again.
-/

namespace SpdkConnector
namespace SpdkBdevContext

open Interleaving

variable {e : Env} {s s' s1 : Sys} {κ : Core} {w v : Nat} {x y : Reactor}

/-- What one step of an I/O callback does to its reactor, and the calls it makes. -/
inductive Done (w : Nat) (x : Reactor) : IoFrame → Reactor → List IoFrame → Prop
  | dispatched : Done w x (.executeWorkerBatch []) x []
  | dispatch (r : Ref) (rs : List Ref) :
      Done w x (.executeWorkerBatch (r :: rs)) x [.executeIo r, .executeWorkerBatch rs]
  | parked (r : Ref) (dma : Nat → Nat → UInt8) (y : Reactor) (fs : List IoFrame)
      (h : Parked r w { x with dma } y fs) : Done w x (.executeIo r) y fs
  | accepted (r : Ref) (k : Nat) (free : List Nat) (dma : Nat → Nat → UInt8) (c : Command)
      (hini : x.pool.initialized = true) (hfree : x.pool.freeIndexes = k :: free) (hc : c.request = r) :
      Done w x (.executeIo r) { x with
        pool := { x.pool with freeIndexes := free, inUse := x.pool.inUse.set k true }
        dma, inFlight := x.inFlight ++ [c] } []
  | fired (r : Ref) (success : Bool) (k : Nat) (r' : Ref) (hk : x.ioWait[k]? = some r')
      (hheld : x.channelHeld = true) :
      Done w x (.freeIo r success) { x with ioWait := x.ioWait.eraseIdx k } [.executeIo r', .freeIo r success]
  | freed (r : Ref) (success : Bool) : Done w x (.freeIo r success) x [.completeIo r success]
  | released (r : Ref) (success success' : Bool) (error : String) (k : Nat) :
      Done w x (.completeIo r success) { x with pool := poolAfterRelease x.pool (some k) }
        [.completeRequest r success' error, .drainPendingIo w]
  | completed (r : Ref) (success : Bool) (error : String) (fs : List IoFrame)
      (hfs : fs = [] ∨ fs = [.notifyOne r.1]) : Done w x (.completeRequest r success error) x fs
  | notified (b : Nat) : Done w x (.notifyOne b) x []
  | nested (h : x.drainingPendingIo = true) : Done w x (.drainPendingIo w) x []
  | drains (h : x.drainingPendingIo = false) :
      Done w x (.drainPendingIo w) { x with drainingPendingIo := true } [.drainLoop w]
  | popped (r : Ref) (rest : List Ref) (hp : x.pendingIo = r :: rest) (ha : x.pool.freeIndexes ≠ []) :
      Done w x (.drainLoop w) { x with pendingIo := rest } [.executeIo r, .drainLoop w]
  | drained (h : x.pendingIo = [] ∨ x.pool.freeIndexes = []) :
      Done w x (.drainLoop w) { x with drainingPendingIo := false } []

/-- The calls of `shutdown_io_worker`. -/
def LifeFrame.Flushes : LifeFrame → Prop
  | .shutdownIoWorker | .releaseIoWorker => True
  | _ => False

/-- What one step of a life cycle callback does to its reactor. -/
inductive Tended (w : Nat) (x : Reactor) : LifeFrame → Choice → Reactor → List Frame → Prop
  | quiet {c : Choice} (f : LifeFrame) (fs : List LifeFrame) (hfs : ∀ g ∈ fs, ¬ g.Flushes) :
      Tended w x f c x (fs.map .life)
  | posted {c : Choice} (f : LifeFrame) (fs : List LifeFrame) (hfs : ∀ g ∈ fs, ¬ g.Flushes) (m : Msg)
      (g : LifeFrame) (hm : m.frame = .life g) : Tended w x f c { x with queue := x.queue ++ [m] } (fs.map .life)
  | setUp {c : Choice} (pool : SpdkBufferPool) (dma : Nat → Nat → UInt8) (bytes : Nat) (ioChannel channelHeld : Bool)
      (error : String)
      (hpool : pool = x.pool ∨ x.pool.initialized = false ∧ ∃ size alignment n, 0 < n ∧
        pool = SpdkBufferPool.filled size alignment (List.range n)) :
      Tended w x .initializeIoWorker c
        { x with pool, dma, dmaPoolAllocatedBytes := bytes, ioChannel, channelHeld }
        [.life (.onIoWorkerInitialized error)]
  | own (i : Nat) : Tended w x (.postShutdown i) .next x [.life .shutdownIoWorker]
  | cut (rc : Int) (hrc : rc ≠ 0) : Tended w x (.postShutdown w) (.code rc)
      { x with pool := {}, dmaPoolAllocatedBytes := 0, ioChannel := false }
      [.life .onIoWorkerShutdown, .life (.postShutdown (w + 1))]
  | flushed {c : Choice} (r : Ref) (rest : List Ref) (error : String) (hp : x.pendingIo = r :: rest) :
      Tended w x .shutdownIoWorker c { x with pendingIo := rest }
        [.io (.completeRequest r false error), .life .shutdownIoWorker]
  | flushedAll {c : Choice} (hp : x.pendingIo = []) : Tended w x .shutdownIoWorker c x [.life .releaseIoWorker]
  | released {c : Choice} (fs : List LifeFrame) (hfs : ∀ g ∈ fs, ¬ g.Flushes) : Tended w x .releaseIoWorker c { x with
        pool := {}, dmaPoolAllocatedBytes := 0
        channelHeld := if x.ioChannel then false else x.channelHeld
        ioChannel := false, shutDown := true } (fs.map .life)

/-- What it does to another reactor. -/
inductive Reached (v : Nat) (x : Reactor) : LifeFrame → Choice → Reactor → Prop
  | same {c : Choice} (f : LifeFrame) : Reached v x f c x
  | posted {c : Choice} (f : LifeFrame) (m : Msg) (g : LifeFrame) (hm : m.frame = .life g) :
      Reached v x f c { x with queue := x.queue ++ [m] }
  | cut (rc : Int) (hrc : rc ≠ 0) : Reached v x (.postShutdown v) (.code rc)
      { x with pool := {}, dmaPoolAllocatedBytes := 0, ioChannel := false }

/-- What a step of the context does to reactor `v`. -/
inductive Acted (s : Sys) (v : Nat) : Action → Reactor → Prop
  | same (a : Action) : Acted s v a (s.reactor v)
  | dispatch (b : Nat) (c : Choice) (d : IoWorkerDispatch) (todo : List IoWorkerDispatch)
      (h : (s.batch b).caller = .sending d todo) (hv : d.worker = v) :
      Acted s v (.caller b c) { s.reactor v with queue := (s.reactor v).queue ++ [.executeWorkerBatch d] }
  | posted (a : Action) (m : Msg) (g : LifeFrame) (hm : m.frame = .life g) :
      Acted s v a { s.reactor v with queue := (s.reactor v).queue ++ [m] }
  | message (m : Msg) (rest : List Msg) (hidle : (s.reactor v).stack = []) (hq : (s.reactor v).queue = m :: rest) :
      Acted s v (.reactor v .message) { s.reactor v with queue := rest, stack := [m.frame] }
  | completion (k : Nat) (success : Bool) (c : Command) (hidle : (s.reactor v).stack = [])
      (hk : (s.reactor v).inFlight[k]? = some c) :
      Acted s v (.reactor v (.completion k success)) { s.reactor v with
        inFlight := (s.reactor v).inFlight.eraseIdx k, stack := [.io (.freeIo c.request success)] }
  | ioWait (k : Nat) (r : Ref) (hidle : (s.reactor v).stack = []) (hk : (s.reactor v).ioWait[k]? = some r)
      (hheld : (s.reactor v).channelHeld = true) :
      Acted s v (.reactor v (.ioWait k)) { s.reactor v with
        ioWait := (s.reactor v).ioWait.eraseIdx k, stack := [.io (.executeIo r)] }
  | event (c : Choice) (rc : Int) (error : String) (hidle : (s.reactor v).stack = []) :
      Acted s v (.reactor v c) { s.reactor v with stack := [.life (.requestShutdown rc error)] }
  | io (c : Choice) (f : IoFrame) (rest : List Frame) (y : Reactor) (fs : List IoFrame)
      (hst : (s.reactor v).stack = .io f :: rest) (h : Done v { s.reactor v with stack := rest } f y fs) :
      Acted s v (.reactor v c) { y with stack := fs.map .io ++ rest }
  | life (c : Choice) (f : LifeFrame) (rest : List Frame) (y : Reactor) (fs : List Frame)
      (hst : (s.reactor v).stack = .life f :: rest) (h : Tended v { s.reactor v with stack := rest } f c y fs) :
      Acted s v (.reactor v c) { y with stack := fs ++ rest }
  | reached (u : Nat) (c : Choice) (f : LifeFrame) (rest : List Frame) (y : Reactor) (hu : v ≠ u)
      (hst : (s.reactor u).stack = .life f :: rest) (h : Reached v (s.reactor v) f c y) :
      Acted s v (.reactor u c) y
  | moved (a : Action) (k : Nat) (c c' : Command) (dma : Nat → Nat → UInt8)
      (hk : (s.reactor v).inFlight[k]? = some c) (hc : c'.request = c.request) :
      Acted s v a { s.reactor v with inFlight := (s.reactor v).inFlight.set k c', dma }

/-! ## The I/O callbacks -/

theorem runIo_done (ht : Tracks s κ) (hc : Consistent e κ) {f : IoFrame} {rest : List Frame}
    (hst : (s.reactor w).stack = .io f :: rest) {c : Choice} {fs : List IoFrame}
    (h : runIo e (s.setReactor w { s.reactor w with stack := rest }) w f c = some (s1, fs)) :
    ∃ y, s1.reactor = Function.update (s.setReactor w { s.reactor w with stack := rest }).reactor w y ∧
      Done w { s.reactor w with stack := rest } f y fs := by
  have htidy := ht.tidy.reactor w
  have hpopped : ((s.setReactor w { s.reactor w with stack := rest }).reactor w) =
      { s.reactor w with stack := rest } := by simp [Sys.setReactor]
  have hsame : (s.setReactor w { s.reactor w with stack := rest }).reactor =
      Function.update (s.setReactor w { s.reactor w with stack := rest }).reactor w
        { s.reactor w with stack := rest } := by simp [Sys.setReactor]
  have hlocal := htidy.frames (.io f) (hst ▸ List.mem_cons_self)
  have hentry : ∀ y ∈ f.entries, κ.stage y.1 = y.2 ∧ (s.request y.1).worker = w := fun y hy =>
    ht.entry (entries_frame (f := .io f) (hst ▸ List.mem_cons_self) hy)
  unfold runIo at h
  split at h
  · simp only [Option.some.injEq, Prod.mk.injEq] at h
    obtain ⟨rfl, rfl⟩ := h
    exact ⟨_, hsame, .dispatched⟩
  · simp only [Option.some.injEq, Prod.mk.injEq] at h
    obtain ⟨rfl, rfl⟩ := h
    exact ⟨_, hsame, .dispatch _ _⟩
  · -- `execute_io_on_worker`
    rename_i r submitResult waitResult sendResult
    obtain ⟨hstage, hw⟩ := hentry (r, .queued) (by simp [IoFrame.entries])
    have hfits := hc.fits r
    rw [show κ.stage r = .queued from hstage, ht.request] at hfits
    have hspec := executeIo_spec (e := e) (s := s.setReactor w { s.reactor w with stack := rest }) (w := w) (r := r)
      hw (by rw [hpopped]; exact htidy.pool) (by rw [hpopped]; exact htidy.buffers) hfits.2.2.1
      submitResult waitResult sendResult
    rw [Option.some.inj h] at hspec
    obtain ⟨-, -, q', hcase, -⟩ := hspec
    rw [hpopped] at hcase
    rcases hcase with ⟨dma, y, -, -, hparked, hreactor⟩ | ⟨k, free, hini, hfree, rfl, -, hreactor⟩
    · exact ⟨y, hreactor, .parked r dma y fs hparked⟩
    · exact ⟨_, hreactor, .accepted r k free _ (commandFor e r _ _) hini hfree rfl⟩
  · -- `spdk_bdev_free_io` runs an `io_wait` callback
    simp only [hpopped] at h
    split at h
    · cases h
    · rename_i r' hk
      split at h
      · rename_i hheld
        simp only [Option.some.injEq, Prod.mk.injEq] at h
        obtain ⟨rfl, rfl⟩ := h
        exact ⟨_, update_popped _ _ _ _, .fired _ _ _ r' hk hheld⟩
      · cases h
  · simp only [Option.some.injEq, Prod.mk.injEq] at h
    obtain ⟨rfl, rfl⟩ := h
    exact ⟨_, hsame, .freed _ _⟩
  · -- `complete_io_on_worker`
    rename_i r success
    obtain ⟨hstage, hw⟩ := hentry (r, .reported success) (by simp [IoFrame.entries])
    have hfits := hc.fits r
    rw [show κ.stage r = .reported success from hstage, ht.request] at hfits
    obtain ⟨k, hk⟩ := Option.ne_none_iff_exists'.1 hfits.2.2.1
    have hreq : (s.setReactor w { s.reactor w with stack := rest }).request = s.request := rfl
    have hspec := completeIo_spec (e := e) (s := s.setReactor w { s.reactor w with stack := rest }) (r := r)
      (by rw [hreq, show (s.request r).worker = w from hw, hpopped]; exact htidy.pool) hk success
    rw [Option.some.inj h] at hspec
    obtain ⟨success', error, hfs, -, hreactor, -⟩ := hspec
    rw [hreq, show (s.request r).worker = w from hw, hpopped] at hreactor
    rw [hreq, show (s.request r).worker = w from hw] at hfs
    dsimp only at hfs
    subst hfs
    exact ⟨_, hreactor, .released r success success' error k⟩
  · -- `complete_request`
    rename_i r success error
    obtain ⟨hstage, -⟩ := hentry (r, .closing success) (by simp [IoFrame.entries])
    have hfits := hc.fits r
    rw [show κ.stage r = .closing success from hstage, ht.request] at hfits
    obtain ⟨-, hreactor, -, -, -⟩ := completeRequest_spec (s := s.setReactor w { s.reactor w with stack := rest })
      (r := r) hfits.1 success error
    simp only [Option.some.injEq, Prod.mk.injEq] at h
    obtain ⟨rfl, rfl⟩ := h
    refine ⟨_, hreactor.trans hsame, .completed r success error _ ?_⟩
    split
    · exact .inr rfl
    · exact .inl rfl
  · split at h
    · simp only [Option.some.injEq, Prod.mk.injEq] at h
      obtain ⟨rfl, rfl⟩ := h
      exact ⟨_, hsame, .notified _⟩
    · simp only [Option.some.injEq, Prod.mk.injEq] at h
      obtain ⟨rfl, rfl⟩ := h
      exact ⟨_, hsame, .notified _⟩
  · rename_i u
    have hu : u = w := hlocal
    subst hu
    rw [hpopped] at h
    dsimp only at h
    split at h
    · rename_i hd
      simp only [Option.some.injEq, Prod.mk.injEq] at h
      obtain ⟨rfl, rfl⟩ := h
      exact ⟨_, hsame, .nested hd⟩
    · rename_i hd
      simp only [Option.some.injEq, Prod.mk.injEq] at h
      obtain ⟨rfl, rfl⟩ := h
      exact ⟨_, update_popped _ _ _ _, .drains (by simpa using hd)⟩
  · rename_i u
    have hu : u = w := hlocal
    subst hu
    rw [hpopped] at h
    dsimp only at h
    split at h
    · rename_i r tail hpending
      split at h
      · rename_i ha
        simp only [Option.some.injEq, Prod.mk.injEq] at h
        obtain ⟨rfl, rfl⟩ := h
        exact ⟨_, update_popped _ _ _ _, .popped r tail hpending fun hf => ha (congrArg List.length hf)⟩
      · rename_i ha
        simp only [Option.some.injEq, Prod.mk.injEq] at h
        obtain ⟨rfl, rfl⟩ := h
        exact ⟨_, update_popped _ _ _ _, .drained (.inr (by simpa [SpdkBufferPool.available] using ha))⟩
    · rename_i hpending
      simp only [Option.some.injEq, Prod.mk.injEq] at h
      obtain ⟨rfl, rfl⟩ := h
      exact ⟨_, update_popped _ _ _ _, .drained (.inl hpending)⟩
  · cases h

/-! ## The life cycle callbacks -/

/-- Only the running callback's own calls change. -/
theorem tended_same {f : LifeFrame} {c : Choice} (hs : s1.reactor = s.reactor) (fs : List LifeFrame)
    (hfs : ∀ g ∈ fs, ¬ g.Flushes) :
    Tended w (s.reactor w) f c (s1.reactor w) (fs.map .life) ∧
    ∀ v, v ≠ w → Reached v (s.reactor v) f c (s1.reactor v) := by
  rw [hs]
  exact ⟨.quiet f fs hfs, fun v _ => .same f⟩

theorem tended_post {f g : LifeFrame} {c : Choice} {u : Nat} {m : Msg} (hs : s1.reactor = (s.post u m).reactor)
    (hm : m.frame = .life g) (fs : List LifeFrame) (hfs : ∀ g ∈ fs, ¬ g.Flushes) :
    Tended w (s.reactor w) f c (s1.reactor w) (fs.map .life) ∧
    ∀ v, v ≠ w → Reached v (s.reactor v) f c (s1.reactor v) := by
  rw [hs]
  simp only [Sys.post, Sys.setReactor]
  constructor
  · rcases eq_or_ne w u with rfl | hw
    · rw [Function.update_self]
      exact .posted f fs hfs m g hm
    · rw [Function.update_of_ne hw]
      exact .quiet f fs hfs
  · intro v _
    rcases eq_or_ne v u with rfl | hv
    · rw [Function.update_self]
      exact .posted f m g hm
    · rw [Function.update_of_ne hv]
      exact .same f

/-- `initialize_io_worker` fills the pool and takes the channel, or fails before it. -/
theorem initializeIoWorker_reactor (hwf : (s.reactor w).pool.WF) (onReactor channel : Bool) (obtained : Nat) :
    ∃ pool dma bytes ioChannel channelHeld,
      (initializeIoWorker e s w onReactor channel obtained).1.reactor = Function.update s.reactor w
        { s.reactor w with pool, dma, dmaPoolAllocatedBytes := bytes, ioChannel, channelHeld } ∧
      (pool = (s.reactor w).pool ∨ (s.reactor w).pool.initialized = false ∧ ∃ size alignment n, 0 < n ∧
        pool = SpdkBufferPool.filled size alignment (List.range n)) := by
  obtain ⟨y, hy, -, -, -, -, -, -, -, -, hpool⟩ :=
    initializeIoWorker_spec (e := e) (s := s) hwf onReactor channel obtained
  have hyw : (initializeIoWorker e s w onReactor channel obtained).1.reactor w = y := by
    rw [hy, Function.update_self]
  have hform : ∃ pool dma bytes ioChannel channelHeld,
      y = { s.reactor w with pool, dma, dmaPoolAllocatedBytes := bytes, ioChannel, channelHeld } := by
    rw [← hyw]
    unfold initializeIoWorker
    dsimp only
    split
    · exact ⟨_, _, _, _, _, rfl⟩
    · split
      · exact ⟨_, _, _, _, _, rfl⟩
      · split
        · exact ⟨_, _, _, _, _, Function.update_self _ _ _⟩
        · exact ⟨_, _, _, _, _, Function.update_self _ _ _⟩
  obtain ⟨pool, dma, bytes, ioChannel, channelHeld, rfl⟩ := hform
  refine ⟨pool, dma, bytes, ioChannel, channelHeld, hy, ?_⟩
  rcases hpool with ⟨hsame, -⟩ | ⟨hini, n, hn, -, hfilled⟩
  · exact .inl hsame
  · exact .inr ⟨hini, _, _, n, hn, hfilled⟩

theorem runLife_tended (hwf : (s.reactor w).pool.WF) {f : LifeFrame} {c : Choice} {fs : List Frame}
    (h : runLife e s w f c = some (s1, fs)) :
    Tended w (s.reactor w) f c (s1.reactor w) fs ∧ ∀ v, v ≠ w → Reached v (s.reactor v) f c (s1.reactor v) := by
  unfold runLife at h
  split at h
  · split at h
    · cases h
      exact tended_same rfl [_, _] (by simp [LifeFrame.Flushes])
    · cases h
      exact tended_same rfl [_] (by simp [LifeFrame.Flushes])
  · split at h
    · cases h
      exact tended_same rfl [_, _] (by simp [LifeFrame.Flushes])
    · cases h
  · cases h
    exact tended_same rfl [_] (by simp [LifeFrame.Flushes])
  · -- an initialisation is posted
    split at h
    · split at h
      · cases h
        exact tended_post rfl rfl [_] (by simp [LifeFrame.Flushes])
      · cases h
        exact tended_same rfl [_, _] (by simp [LifeFrame.Flushes])
    · cases h
  · split at h
    · cases h
    · cases h
      exact tended_same rfl [_] (by simp [LifeFrame.Flushes])
  · -- a worker sets itself up
    rename_i onReactor channel obtained
    obtain ⟨pool, dma, bytes, ioChannel, channelHeld, hreactor, hpool⟩ :=
      initializeIoWorker_reactor (e := e) hwf onReactor channel obtained
    generalize initializeIoWorker e s w onReactor channel obtained = p at h hreactor
    obtain ⟨s2, error⟩ := p
    cases h
    dsimp only at hreactor
    rw [hreactor, Function.update_self]
    refine ⟨.setUp pool dma bytes ioChannel channelHeld _ hpool, fun v hv => ?_⟩
    rw [Function.update_of_ne hv]
    exact .same _
  · rename_i error
    obtain ⟨lastError, heq⟩ := onIoWorkerInitialized_eq s error
    rw [heq] at h
    by_cases hlast : s.ctx.workersInitializing - 1 = 0
    · rw [if_pos hlast] at h
      cases h
      refine tended_same rfl _ ?_
      split <;> simp [LifeFrame.Flushes]
    · rw [if_neg hlast] at h
      cases h
      exact tended_same rfl [] (by simp)
  · cases h
    exact tended_same rfl [_] (by simp [LifeFrame.Flushes])
  · cases h
    exact tended_same rfl [] (by simp)
  · -- a shutdown is requested
    rename_i rc error
    obtain ⟨lastError, code, start, -, heq⟩ := requestShutdown_eq s rc error
    rw [heq] at h
    cases h
    cases start
    · exact tended_same rfl [] (by simp)
    · exact tended_same rfl [_] (by simp [LifeFrame.Flushes])
  · cases h
    unfold postBeginShutdown
    split
    · exact tended_post rfl rfl [] (by simp)
    · exact tended_same rfl [] (by simp)
  · split at h
    · cases h
      exact tended_same rfl [] (by simp)
    · cases h
      split
      · exact tended_same rfl [_] (by simp [LifeFrame.Flushes])
      · exact tended_same rfl [_] (by simp [LifeFrame.Flushes])
  · -- a worker's shutdown is posted, or its pool released from here
    rename_i i rc
    split at h
    · split at h
      · cases h
        exact tended_post rfl rfl [_] (by simp [LifeFrame.Flushes])
      · rename_i hrc
        cases h
        rw [postShutdown_reactor]
        constructor
        · rcases eq_or_ne w i with rfl | hw
          · rw [Function.update_self]
            exact .cut rc hrc
          · rw [Function.update_of_ne hw]
            exact .quiet _ [.onIoWorkerShutdown, .postShutdown (i + 1)] (by simp [LifeFrame.Flushes])
        · intro v _
          rcases eq_or_ne v i with rfl | hv
          · rw [Function.update_self]
            exact .cut rc hrc
          · rw [Function.update_of_ne hv]
            exact .same _
    · cases h
  · split at h
    · cases h
    · cases h
      exact ⟨.own _, fun v _ => .same _⟩
  · -- the flush of a worker
    dsimp only at h
    split at h
    · rename_i r tail hpending
      cases h
      simp only [Sys.setReactor, Function.update_self]
      refine ⟨.flushed r tail _ hpending, fun v hv => ?_⟩
      rw [Function.update_of_ne hv]
      exact .same _
    · rename_i hpending
      cases h
      exact ⟨.flushedAll hpending, fun v _ => .same _⟩
  · -- a worker's resources are released
    cases h
    rw [releaseIoWorker_reactor, Function.update_self]
    have hcalls : (if w = 0 then [Frame.life .onIoWorkerShutdown] else [.life .postFinish]) =
        (if w = 0 then [LifeFrame.onIoWorkerShutdown] else [.postFinish]).map .life := by
      split <;> rfl
    constructor
    · rw [hcalls]
      refine .released _ ?_
      split <;> simp [LifeFrame.Flushes]
    · intro v hv
      rw [Function.update_of_ne hv]
      exact .same _
  · cases h
    split
    · exact tended_post rfl rfl [_] (by simp [LifeFrame.Flushes])
    · exact tended_same rfl [_] (by simp [LifeFrame.Flushes])
  · cases h
    exact tended_same rfl [] (by simp)
  · cases h
    dsimp only
    split
    · exact tended_same rfl [_] (by simp [LifeFrame.Flushes])
    · exact tended_same rfl [] (by simp)
  · cases h
    exact tended_same rfl [_] (by simp [LifeFrame.Flushes])
  · cases h
    exact tended_same rfl [_] (by simp [LifeFrame.Flushes])
  · cases h

/-! ## The steps of the context -/

theorem pickUp_acted {c : Choice} (hidle : (s.reactor w).stack = []) (h : pickUp s w c = some s') (v : Nat) :
    Acted s v (.reactor w c) (s'.reactor v) := by
  have hone : ∀ (x : Reactor) (s1 : Sys), s1.reactor = Function.update s.reactor w x →
      Acted s w (.reactor w c) x → Acted s v (.reactor w c) (s1.reactor v) := by
    intro x s1 hs hx
    rw [hs]
    rcases eq_or_ne v w with rfl | hv
    · rwa [Function.update_self]
    · rw [Function.update_of_ne hv]
      exact .same _
  unfold pickUp at h
  split at h
  · dsimp only at h
    split at h
    · cases h
    · rename_i m rest hq
      cases h
      exact hone _ _ rfl (.message m rest hidle hq)
  · rename_i k success
    dsimp only at h
    split at h
    · cases h
    · rename_i c hk
      cases h
      exact hone _ _ rfl (.completion k success c hidle hk)
  · rename_i k
    dsimp only at h
    split at h
    · cases h
    · rename_i r hk
      split at h
      · rename_i hheld
        cases h
        exact hone _ _ rfl (.ioWait k r hidle hk hheld)
      · cases h
  · split at h
    · cases h
      exact hone _ _ rfl (.event _ _ _ hidle)
    · cases h
  · split at h
    · cases h
      exact hone _ _ rfl (.event _ _ _ hidle)
    · cases h
  · cases h

/-- A step of a reactor in an I/O callback. -/
theorem reactorStep_io (ht : Tracks s κ) (hc : Consistent e κ) {c : Choice} {f : IoFrame} {rest : List Frame}
    (hst : (s.reactor w).stack = .io f :: rest) (h : reactorStep e s w c = some s') :
    ∃ y fs, s'.reactor = Function.update s.reactor w { y with stack := fs.map .io ++ rest } ∧
      Done w { s.reactor w with stack := rest } f y fs := by
  unfold reactorStep at h
  rw [hst] at h
  obtain ⟨⟨s1, fs⟩, hrun, rfl⟩ := Option.map_eq_some_iff.1 h
  obtain ⟨⟨s2, fs'⟩, hio, heq⟩ := Option.map_eq_some_iff.1 hrun
  cases heq
  obtain ⟨y, hreactor, hdone⟩ := runIo_done ht hc hst hio
  refine ⟨y, fs', ?_, hdone⟩
  simp [Sys.setReactor, hreactor]

theorem reactorStep_acted (ht : Tracks s κ) (hc : Consistent e κ) {c : Choice} (h : reactorStep e s w c = some s')
    (v : Nat) : Acted s v (.reactor w c) (s'.reactor v) := by
  cases hst : (s.reactor w).stack with
  | nil =>
    rw [reactorStep, hst] at h
    exact pickUp_acted hst h v
  | cons f rest =>
    cases f with
    | io f =>
      obtain ⟨y, fs, hreactor, hdone⟩ := reactorStep_io ht hc hst h
      rw [hreactor]
      rcases eq_or_ne v w with rfl | hv
      · rw [Function.update_self]
        exact .io c f rest y fs hst hdone
      · rw [Function.update_of_ne hv]
        exact .same _
    | life f =>
      rw [reactorStep, hst] at h
      obtain ⟨⟨s1, fs⟩, hrun, rfl⟩ := Option.map_eq_some_iff.1 h
      have hpopped : ((s.setReactor w { s.reactor w with stack := rest }).reactor w) =
          { s.reactor w with stack := rest } := by simp [Sys.setReactor]
      simp only [Sys.setReactor]
      have htidy := ht.tidy.reactor w
      obtain ⟨htended, hreached⟩ := runLife_tended (by rw [hpopped]; exact htidy.pool) hrun
      rw [hpopped] at htended
      rcases eq_or_ne v w with rfl | hv
      · rw [Function.update_self]
        exact .life c f rest _ fs hst htended
      · rw [Function.update_of_ne hv]
        have hv' := hreached v hv
        simp only [Sys.setReactor, Function.update_of_ne hv] at hv'
        exact .reached w c f rest _ hv hst hv'

theorem callerStep_acted {b : Nat} {c : Choice} (h : callerStep e s b c = some s') (v : Nat) :
    Acted s v (.caller b c) (s'.reactor v) := by
  have hsame : ∀ s1 : Sys, s1.reactor = s.reactor → Acted s v (.caller b c) (s1.reactor v) := by
    intro s1 hs
    rw [hs]
    exact .same _
  have hcomplete : ∀ r error, (completeRequest s r false error).1.reactor = s.reactor := by
    intro r error
    unfold completeRequest
    dsimp only
    split <;> rfl
  unfold callerStep at h
  dsimp only at h
  split at h
  · cases h
    exact hsame _ rfl
  · split at h
    · cases h
      exact hsame _ rfl
    · cases h
      exact hsame _ rfl
  · -- the post
    rename_i d todo rc hpc
    split at h
    · cases h
      exact hsame _ rfl
    · split at h
      · cases h
        exact hsame _ rfl
      · cases h
        simp only [Sys.setBatch, Sys.post, Sys.setReactor]
        rcases eq_or_ne v d.worker with hv | hv
        · rw [hv, Function.update_self, ← hv]
          exact .dispatch b _ d todo hpc hv.symm
        · rw [Function.update_of_ne hv]
          exact .same _
  · cases h
    exact hsame _ rfl
  · rename_i r rs error todo hpc
    cases h
    exact hsame _ (hcomplete r error)
  · cases h
    exact hsame _ rfl
  · cases h
    exact hsame _ rfl
  · cases h
    exact hsame _ rfl
  · cases h
    exact hsame _ rfl
  · cases h

theorem ownerStep_acted {c : Choice} (h : ownerStep e s c = some s') (v : Nat) :
    Acted s v (.owner c) (s'.reactor v) := by
  have hsame : ∀ s1 : Sys, s1.reactor = s.reactor → Acted s v (.owner c) (s1.reactor v) := by
    intro s1 hs
    rw [hs]
    exact .same _
  unfold ownerStep at h
  split at h
  · cases h
    exact hsame _ rfl
  · cases h
    exact hsame _ rfl
  · cases h
    exact hsame _ rfl
  · cases h
    exact hsame _ rfl
  · cases h
    exact hsame _ rfl
  · split at h
    · cases h
      exact hsame _ rfl
    · split at h
      · cases h
        exact hsame _ rfl
      · cases h
        exact hsame _ rfl
  · cases h
    exact hsame _ (requestShutdown_same s 0 "").1
  · -- the teardown is posted
    cases h
    unfold postBeginShutdown
    split
    · simp only [Sys.post, Sys.setReactor]
      rcases eq_or_ne v 0 with rfl | hv
      · rw [Function.update_self]
        exact .posted _ .beginShutdown .beginShutdown rfl
      · rw [Function.update_of_ne hv]
        exact .same _
    · exact hsame _ rfl
  · cases h
    exact hsame _ rfl
  · cases h
    exact hsame _ rfl
  · cases h

/-- A command in flight moves on. -/
theorem acted_moved {a : Action} {k : Nat} {c : Command} (c' : Command) (dma : Nat → Nat → UInt8)
    (hk : (s.reactor w).inFlight[k]? = some c) (hreq : c'.request = c.request)
    (hs : s1.reactor = Function.update s.reactor w
      { s.reactor w with inFlight := (s.reactor w).inFlight.set k c', dma }) (v : Nat) :
    Acted s v a (s1.reactor v) := by
  rw [hs]
  rcases eq_or_ne v w with rfl | hv
  · rw [Function.update_self]
    exact .moved a k c c' dma hk hreq
  · rw [Function.update_of_ne hv]
    exact .same a

theorem transfer_acted {k n : Nat} (h : transfer e s w k n = some s') (v : Nat) :
    Acted s v (.transfer w k n) (s'.reactor v) := by
  unfold transfer at h
  dsimp only at h
  split at h
  · cases h
  · rename_i c hk
    split at h
    · split at h
      · cases h
        exact acted_moved { c with moved := c.moved + n } (s.reactor w).dma hk rfl rfl v
      · cases h
        exact acted_moved { c with moved := c.moved + n } _ hk rfl rfl v
    · cases h

theorem disturb_acted {k : Nat} {noise : Nat → UInt8} (h : disturb e s w k noise = some s') (v : Nat) :
    Acted s v (.disturb w k noise) (s'.reactor v) := by
  unfold disturb at h
  dsimp only at h
  split at h
  · cases h
  · rename_i c hk
    split at h
    · cases h
      exact acted_moved { c with disturbed := true } (s.reactor w).dma hk rfl rfl v
    · cases h
      exact acted_moved { c with disturbed := true } _ hk rfl rfl v

/-- **What a step does to a reactor.** -/
theorem step_acted (ht : Tracks s κ) (hc : Consistent e κ) {a : Action} (h : step e s a = some s') (v : Nat) :
    Acted s v a (s'.reactor v) := by
  cases a with
  | reactor w c =>
    simp only [step] at h
    split at h
    · exact reactorStep_acted ht hc h v
    · cases h
  | caller b c => exact callerStep_acted h v
  | submit operation items memory =>
    simp only [step] at h
    split at h
    · cases h
      obtain ⟨n, m, heq⟩ | ⟨-, -, -, -, -, n, m, heq⟩ := submitBatch_cases e s operation items memory
      · rw [heq]
        exact .same _
      · rw [heq]
        exact .same _
    · cases h
  | owner c => exact ownerStep_acted h v
  | transfer w k n => exact transfer_acted h v
  | disturb w k noise => exact disturb_acted h v
  | runtimeStops =>
    cases h
    exact .same _

end SpdkBdevContext
end SpdkConnector
