import SpdkConnector.Context.Isolation
import SpdkConnector.Context.Completion
import SpdkConnector.Context.Reactors
import SpdkConnector.Context.Waiters

/-!
# What a batch call returns with

The results of a batch have a text where they failed and none where they succeeded (`Plain`). Its caller's bytes
are those it was called with, except where a read was copied (`moves_retain`); and nothing is copied that SPDK did
not report (`Reported`). With data isolation this is all there is to know of a batch that is about to return
(`Delivers`).
-/

namespace SpdkConnector
namespace SpdkBdevContext

open Interleaving

variable {e : Env} {s s' s1 : Sys} {κ κ' : Core} {w b : Nat} {r : Ref}

/-! ## The texts -/

/-- A success is reported without a text. -/
def IoFrame.Plain : IoFrame → Prop
  | .completeRequest _ success error => success = true → error = ""
  | _ => True

def PlainResults (results : List IoResult) : Prop := ∀ x ∈ results, x.success = true → x.error = ""

structure Sys.Plain (s : Sys) : Prop where
  frames : ∀ w f, .io f ∈ (s.reactor w).stack → f.Plain
  results : ∀ b, PlainResults (s.batch b).results

@[simp] theorem plain_executeIo (r : Ref) : (IoFrame.executeIo r).Plain := trivial
@[simp] theorem plain_drain (v : Nat) : (IoFrame.drainPendingIo v).Plain := trivial
@[simp] theorem plain_failure (r : Ref) (error : String) : (IoFrame.completeRequest r false error).Plain := nofun
@[simp] theorem plain_success (r : Ref) (success : Bool) : (IoFrame.completeRequest r success "").Plain := fun _ => rfl

theorem failIo_plain (r : Ref) (error : String) : ∀ f ∈ (failIo e s r error).2, f.Plain := by
  simp [failIo]

theorem submitIo_plain (r : Ref) (index : Nat) (submitResult waitResult sendResult : Int) :
    ∀ f ∈ (submitIo e s r index submitResult waitResult sendResult).2, f.Plain := by
  unfold submitIo
  dsimp only
  split
  · exact failIo_plain r _
  · split
    · split
      · simp
      · split <;> simp
    · split
      · exact failIo_plain r _
      · simp

theorem executeIo_plain (r : Ref) (submitResult waitResult sendResult : Int) :
    ∀ f ∈ (executeIo e s w r submitResult waitResult sendResult).2, f.Plain := by
  unfold executeIo
  dsimp only
  split
  · exact failIo_plain r _
  · split
    · exact failIo_plain r _
    · simp
    · exact submitIo_plain r _ _ _ _

theorem completeIo_plain (r : Ref) (success : Bool) :
    (∀ f ∈ (completeIo e s r success).2, f.Plain) ∧
    ∀ b, ((completeIo e s r success).1.batch b).results = (s.batch b).results := by
  unfold completeIo
  dsimp only
  split
  · split
    · exact ⟨failIo_plain r _, fun b => congrArg (fun f => (f b).results) (releaseBuffer_batch r)⟩
    · refine ⟨by simp, fun b => ?_⟩
      rw [releaseBuffer_batch]
      show (Function.update s.batch r.1 _ b).results = _
      exact field_update IoBatchRequest.results (by rfl) b
  · refine ⟨fun f hf => ?_, fun b => by rw [releaseBuffer_batch]⟩
    cases success <;> simp at hf <;> rcases hf with rfl | rfl <;> simp

theorem completeRequest_plain {success : Bool} {error : String} (hplain : success = true → error = "")
    (h : ∀ b, PlainResults (s.batch b).results) (r : Ref) (b : Nat) :
    PlainResults ((completeRequest s r success error).1.batch b).results := by
  unfold completeRequest
  dsimp only
  split
  · exact h b
  · show PlainResults (Function.update s.batch r.1 _ b).results
    rcases eq_or_ne b r.1 with rfl | hb
    · rw [Function.update_self]
      intro x hx hs
      rcases List.mem_or_eq_of_mem_set hx with hx | rfl
      · exact h _ x hx hs
      · exact hplain hs
    · rw [Function.update_of_ne hb]
      exact h b

/-- An I/O callback keeps the texts plain. -/
theorem runIo_plain {f : IoFrame} {c : Choice} {fs : List IoFrame} (hf : f.Plain)
    (hr : ∀ b, PlainResults (s.batch b).results) (h : runIo e s w f c = some (s1, fs)) :
    (∀ g ∈ fs, g.Plain) ∧ ∀ b, PlainResults (s1.batch b).results := by
  unfold runIo at h
  split at h
  · cases h
    exact ⟨by simp, hr⟩
  · cases h
    exact ⟨by simp [IoFrame.Plain], hr⟩
  · rename_i r submitResult waitResult sendResult
    obtain ⟨h1, h2⟩ := Prod.ext_iff.1 (Option.some.inj h)
    simp only at h1 h2
    subst h1 h2
    exact ⟨executeIo_plain r _ _ _, fun b => by rw [executeIo_batch]; exact hr b⟩
  · dsimp only at h
    split at h
    · cases h
    · split at h
      · cases h
        exact ⟨by simp [IoFrame.Plain], hr⟩
      · cases h
  · cases h
    exact ⟨by simp [IoFrame.Plain], hr⟩
  · rename_i r success
    obtain ⟨h1, h2⟩ := Prod.ext_iff.1 (Option.some.inj h)
    simp only at h1 h2
    subst h1 h2
    exact ⟨(completeIo_plain r success).1, fun b => by rw [(completeIo_plain r success).2]; exact hr b⟩
  · rename_i r success error
    have heq := Option.some.inj h
    rw [show s1 = (completeRequest s r success error).1 from (congrArg Prod.fst heq).symm,
      show fs = if (completeRequest s r success error).2 then [.notifyOne r.1] else [] from (congrArg Prod.snd heq).symm]
    refine ⟨fun g hg => ?_, completeRequest_plain hf hr r⟩
    split at hg
    · simp only [List.mem_singleton] at hg
      subst hg
      trivial
    · simp at hg
  · rename_i b'
    split at h
    · cases h
      refine ⟨by simp, fun b => ?_⟩
      show PlainResults (Function.update s.batch b' _ b).results
      rw [field_update IoBatchRequest.results (by rfl) b]
      exact hr b
    · cases h
      exact ⟨by simp, hr⟩
  · dsimp only at h
    split at h
    · cases h
      exact ⟨by simp, hr⟩
    · cases h
      exact ⟨by simp [IoFrame.Plain], hr⟩
  · dsimp only at h
    split at h
    · split at h
      · cases h
        exact ⟨by simp [IoFrame.Plain], hr⟩
      · cases h
        exact ⟨by simp, hr⟩
    · cases h
      exact ⟨by simp, hr⟩
  · cases h

theorem callerStep_plain {b' : Nat} {c : Choice} (hr : ∀ b, PlainResults (s.batch b).results)
    (h : callerStep e s b' c = some s') (b : Nat) : PlainResults (s'.batch b).results := by
  have hgo : ∀ (s0 : Sys) (pc : CallerPc), (∀ b, PlainResults (s0.batch b).results) →
      PlainResults ((s0.setBatch b' { s0.batch b' with caller := pc }).batch b).results := by
    intro s0 pc h0
    show PlainResults (Function.update s0.batch b' _ b).results
    rw [field_update IoBatchRequest.results (by rfl) b]
    exact h0 b
  unfold callerStep at h
  dsimp only at h
  split at h
  case h_5 =>
    rename_i r rs error todo hpc
    cases h
    have hplain : false = true → error = "" := nofun
    exact hgo _ _ (completeRequest_plain hplain hr r)
  all_goals
    repeat' split at h
    all_goals cases h
    all_goals exact hgo _ _ hr

/-- Before and behind one step of a callback. -/
theorem ioStep_cases {f : IoFrame} {rest : List Frame} {c : Choice} (hst : (s.reactor w).stack = .io f :: rest)
    (h : step e s (.reactor w c) = some s') :
    ∃ s1 fs, runIo e (s.setReactor w { s.reactor w with stack := rest }) w f c = some (s1, fs) ∧
      s'.batch = s1.batch ∧ (s'.reactor w).stack = fs.map .io ++ rest := by
  simp only [step] at h
  split at h
  · unfold reactorStep at h
    rw [hst] at h
    obtain ⟨⟨s1, fs⟩, hrun, rfl⟩ := Option.map_eq_some_iff.1 h
    obtain ⟨⟨s2, fs'⟩, hio, heq⟩ := Option.map_eq_some_iff.1 hrun
    cases heq
    exact ⟨_, fs', hio, rfl, by simp [Sys.setReactor]⟩
  · cases h

/-- A step that is none of an I/O callback leaves the results alone, or is its caller's. -/
theorem step_results (ht : Tracks s κ) {a : Action} (hr : ∀ b, PlainResults (s.batch b).results)
    (hio : ∀ w c f rest, a = .reactor w c → (s.reactor w).stack ≠ .io f :: rest) (h : step e s a = some s') (b : Nat) :
    PlainResults (s'.batch b).results := by
  cases a with
  | reactor w c =>
    simp only [step] at h
    split at h
    · unfold reactorStep at h
      split at h
      · rw [pickUp_batch h]
        exact hr b
      · rename_i f rest hst
        cases f with
        | io f => exact absurd hst (hio w c f rest rfl)
        | life f =>
          obtain ⟨⟨s1, fs⟩, hrun, rfl⟩ := Option.map_eq_some_iff.1 h
          have hwf : (((s.setReactor w { s.reactor w with stack := rest }).reactor w).pool).WF := by
            simpa [Sys.setReactor] using (ht.tidy.reactor w).pool
          have hsame := (runLife_same hwf hrun).2
          simp only [Sys.setReactor] at hsame ⊢
          rw [hsame]
          exact hr b
    · cases h
  | caller b' c => exact callerStep_plain hr h b
  | submit operation items memory =>
    simp only [step] at h
    split at h
    · cases h
      obtain ⟨n, m, heq⟩ | ⟨-, -, -, -, -, n, m, heq⟩ := submitBatch_cases e s operation items memory
      · rw [heq]
        exact hr b
      · rw [heq]
        simp only
        rcases eq_or_ne b s.batches with rfl | hb
        · rw [Function.update_self]
          intro x hx hs
          rw [(List.mem_replicate.1 hx).2] at hs
          cases hs
        · rw [Function.update_of_ne hb]
          exact hr b
    · cases h
  | owner c =>
    rw [ownerStep_batch h]
    exact hr b
  | transfer w k n =>
    rw [transfer_batch h]
    exact hr b
  | disturb w k noise =>
    rw [disturb_batch h]
    exact hr b
  | runtimeStops =>
    cases h
    exact hr b

/-- What a life cycle callback calls of the I/O functions completes without success. -/
theorem Tended.plain {x y : Reactor} {f : LifeFrame} {c : Choice} {fs : List Frame} (h : Tended w x f c y fs) {g : IoFrame}
    (hg : .io g ∈ fs) : g.Plain := by
  cases h with
  | quiet | posted | released => simp at hg
  | setUp | own | cut | flushedAll => simp at hg
  | flushed r rest error =>
    simp only [List.mem_cons, Frame.io.injEq, reduceCtorEq, List.not_mem_nil, or_false] at hg
    subst hg
    exact plain_failure r error

theorem plain_step (h : s.Plain) (ht : Tracks s κ) (hc : Consistent e κ) {a : Action} (hs : step e s a = some s') :
    s'.Plain := by
  by_cases hio : ∃ w c f rest, a = .reactor w c ∧ (s.reactor w).stack = .io f :: rest
  · obtain ⟨w, c, f, rest, rfl, hst⟩ := hio
    obtain ⟨s1, fs, hrun, hbatch, hstack⟩ := ioStep_cases hst hs
    obtain ⟨hfs, hres⟩ := runIo_plain (h.frames w f (hst ▸ List.mem_cons_self)) (by exact h.results) hrun
    refine ⟨fun v g hg => ?_, fun b => by rw [hbatch]; exact hres b⟩
    rcases eq_or_ne v w with rfl | hv
    · rw [hstack, List.mem_append, List.mem_map] at hg
      rcases hg with ⟨f', hf', heq⟩ | hg
      · cases heq
        exact hfs _ hf'
      · exact h.frames v g (hst ▸ List.mem_cons_of_mem _ hg)
    · refine h.frames v g ?_
      have hacted := step_acted ht hc hs v
      revert hg
      generalize s'.reactor v = y at hacted
      intro hg
      cases hacted with
      | io c f rest y fs hst' hd => exact absurd rfl hv
      | life c f rest y fs hst' hd => exact absurd rfl hv
      | message | completion | ioWait | event => exact absurd rfl hv
      | reached u c f rest y hu hst' hr => rw [hst] at hst'; cases hst'
      | same | posted | moved => exact hg
  · refine ⟨fun v g hg => ?_, step_results ht h.results (fun w c f rest ha hst => hio ⟨w, c, f, rest, ha, hst⟩) hs⟩
    have hacted := step_acted ht hc hs v
    revert hg
    generalize s'.reactor v = y at hacted
    intro hg
    cases hacted with
    | io c f rest y fs hst' hd => exact absurd ⟨_, _, _, _, rfl, hst'⟩ hio
    | life c f rest y fs hst hd =>
      rcases List.mem_append.1 hg with hg | hg
      · exact hd.plain hg
      · exact h.frames v g (hst ▸ List.mem_cons_of_mem _ hg)
    | message m rest hidle hq =>
      have hframe := List.mem_singleton.1 hg
      cases m <;> cases hframe <;> trivial
    | completion | ioWait =>
      simp only [List.mem_singleton, Frame.io.injEq] at hg
      subst hg
      trivial
    | event => simp at hg
    | reached u c f rest y hu hst' hr =>
      refine h.frames v g ?_
      cases hr <;> exact hg
    | same | dispatch | posted | moved => exact h.frames v g hg

theorem init_plain (device : Nat → UInt8) : (Sys.init device).Plain where
  frames w f hf := by
    rcases eq_or_ne w 0 with rfl | hw
    · simp [Sys.init] at hf
    · simp [Sys.init, hw] at hf
  results b x hx := by simp [Sys.init] at hx

/-! ## The bytes -/

/-- Only reads are copied, and only those SPDK reported. -/
def Reported (κ : Core) : Prop :=
  ∀ r, (κ.request r).copied ≠ none → (κ.request r).reported = some true ∧ (κ.request r).operation = .read

theorem reported_update {q : IoRequest} (h : Reported κ) (hreq : κ'.request = Function.update κ.request r q)
    (hq : q.copied ≠ none → q.reported = some true ∧ q.operation = .read) : Reported κ' := by
  intro r' hr'
  rw [hreq] at hr' ⊢
  rcases eq_or_ne r' r with rfl | hne
  · rw [Function.update_self] at hr' ⊢
    exact hq hr'
  · rw [Function.update_of_ne hne] at hr' ⊢
    exact h r' hr'

theorem move_reported (h : Reported κ) (hc : Consistent e κ) (hm : Move e κ κ') : Reported κ' := by
  cases hm with
  | submit b op items memory pc req hnew hlen hok hlive hpc hreq =>
    intro r hr
    simp only at hr ⊢
    split at hr
    · rename_i hin
      exact absurd (hreq r.2 _ (List.getElem?_eq_getElem hin.2)).copied hr
    · rename_i hin
      rw [if_neg hin]
      exact h r hr
  | note r q hq =>
    refine reported_update (r := r) h rfl fun hcopied => ?_
    rw [hq.2.2.2.2.2.2.2.1, hq.2.2.1]
    exact h r (hq.2.2.2.2.2.2.2.2 ▸ hcopied)
  | accept r k rest => exact reported_update (r := r) h rfl (h r)
  | report r c success hr _ =>
    refine reported_update (r := r) h rfl fun hcopied => ?_
    have hfits := hc.fits r
    rw [hr] at hfits
    exact absurd hfits.2.2.2.2.1 hcopied
  | deliver r k hr hop _ _ =>
    refine reported_update (r := r) h (Function.update_idem ..) fun _ => ?_
    have hfits := hc.fits r
    rw [hr] at hfits
    simpa [Core.copy] using And.intro hfits.2.2.2.1 hop
  | finish r success success' => exact reported_update (r := r) h rfl (h r)
  | complete r success error => exact reported_update (r := r) h rfl (h r)
  | _ => exact h

/-- Of the caller's bytes a move changes those of a read it copies. -/
structure Retains (κ κ' : Core) (b : Nat) : Prop where
  copied : ∀ i, (κ.request (b, i)).copied ≠ none → (κ'.request (b, i)).copied ≠ none
  memory : ∀ buffer a, (∀ i it, (κ.batch b).items[i]? = some it → (κ'.request (b, i)).copied ≠ none →
    ¬ CallerBytes it buffer a) → (κ'.batch b).memory buffer a = (κ.batch b).memory buffer a

theorem Retains.same (hreq : ∀ i, (κ'.request (b, i)).copied = (κ.request (b, i)).copied)
    (hmemory : (κ'.batch b).memory = (κ.batch b).memory) : Retains κ κ' b where
  copied i h := by rwa [hreq i]
  memory _ _ _ := by rw [hmemory]

theorem Retains.update {q : IoRequest} (hreq : κ'.request = Function.update κ.request r q)
    (hq : q.copied = (κ.request r).copied) (hmemory : (κ'.batch b).memory = (κ.batch b).memory) : Retains κ κ' b := by
  refine .same (fun i => ?_) hmemory
  rw [hreq]
  rcases eq_or_ne (b, i) r with rfl | hne
  · rw [Function.update_self, hq]
  · rw [Function.update_of_ne hne]

theorem move_retains (hc : Consistent e κ) (hm : Move e κ κ') (hb : (κ.batch b).caller ≠ .absent) : Retains κ κ' b := by
  cases hm with
  | submit c op items memory pc req hnew =>
    have hne : b ≠ c := fun h => hb (h ▸ hnew)
    exact .same (fun i => by simp [hne]) (by simp [hne])
  | note r q hq => exact .update rfl hq.2.2.2.2.2.2.2.2 rfl
  | accept r k rest => exact .update (r := r) rfl rfl rfl
  | report r c success => exact .update (r := r) rfl rfl rfl
  | finish r success success' => exact .update (r := r) rfl rfl rfl
  | complete r success error =>
    exact .update (r := r) rfl rfl (field_update IoBatchRequest.memory (by rfl) b)
  | caller c pc => exact .same (fun _ => rfl) (field_update IoBatchRequest.memory (by rfl) b)
  | deliver r k hr hop hk hl =>
    obtain ⟨c, j⟩ := r
    have hreq : ∀ i, (((κ.copy (c, j) k).finish (c, j) true).request (b, i)).copied =
        if (b, i) = (c, j) then some (κ.stagedBytes (c, j) k) else (κ.request (b, i)).copied := by
      intro i
      simp only [Core.copy, Core.finish, Core.setRequest, Core.setPool, Core.setBatch, Core.setStage,
        Function.update_apply]
      split <;> simp_all
    refine ⟨fun i hi => ?_, fun buffer a ha => ?_⟩
    · rw [hreq]
      split
      · simp
      · exact hi
    · show (Function.update κ.batch c _ b).memory buffer a = _
      rcases eq_or_ne b c with rfl | hne
      · rw [Function.update_self]
        have hlt : j < (κ.batch b).items.length := by
          rw [← Nat.not_le, ← hc.absent_iff, hr]
          simp
        have hitem := List.getElem?_eq_getElem hlt
        rw [(hc.built b j _ hitem).1]
        refine copyToCaller_other ?_ (ha j _ hitem (by simp [hreq]))
        simp [Core.stagedBytes, (hc.built b j _ hitem).1]
      · rw [Function.update_of_ne hne]
  | _ => exact .same (fun _ => rfl) rfl

theorem moves_retain (hc : Consistent e κ) (hm : Moves e κ κ') (hb : (κ.batch b).caller ≠ .absent) : Retains κ κ' b := by
  induction hm with
  | refl => exact .same (fun _ => rfl) rfl
  | @tail κ1 κ2 hm hlast ih =>
    have hk := move_retains (moves_consistent hc hm) hlast (moves_present hm hb).1
    refine ⟨fun i hi => hk.copied i (ih.copied i hi), fun buffer a ha => ?_⟩
    have hitems := (moves_present hm hb).2.1
    rw [hk.memory buffer a fun i it hi => ha i it (hitems ▸ hi),
      ih.memory buffer a fun i it hi hcopied => ha i it hi (hk.copied i hcopied)]

end SpdkBdevContext
end SpdkConnector
