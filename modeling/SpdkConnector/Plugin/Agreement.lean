import SpdkConnector.Plugin.Guard

/-!
# When the two guards agree

The claimed settings never change, and an application is only ever started with a configuration made from them
(`Coherent`). So `_guard_runtime` speaks for `Acquire` as long as a construction it let through has started the
application and the CPUs stand in the same order (`guards_agree`). What it lets through `Acquire` never finds
different.
-/

namespace SpdkConnector
namespace Plugin

open Codec Interleaving

variable {env : Environment} {p p' : Process} {c c' : SpdkConnectorConfig} {r : SpdkRuntimeConfig}

/-! ## The configuration that settings ask for -/

/-- The environment's part of a runtime configuration. -/
theorem requested_ok (h : requested env c = .ok r) : ∃ mask, makeCoreMask c.spdkReactorCpus = .ok mask ∧
    r = { jsonConfigFile := absolute env.workingDirectory c.spdkJsonConfig, coreMask := mask,
          memorySizeMb := c.spdkMemorySizeMb, noHuge := c.spdkNoHuge, noPci := c.spdkNoPci,
          printLevel := resolveOption [] env.printLevel, logFlags := parseLogFlags (resolveOption [] env.logFlags),
          tpointGroupMask := resolveOption [] env.tpointGroupMask, ioThreadCount := c.spdkIoThreadCount } := by
  unfold requested makeConfig at h
  cases hmask : makeCoreMask c.spdkReactorCpus with
  | error e =>
    rw [hmask] at h
    cases h
  | ok mask =>
    rw [hmask] at h
    refine ⟨mask, rfl, ?_⟩
    simp only [Except.map, Except.bind, makeRuntimeConfig, Bool.not_true, Bool.false_eq_true, if_false] at h
    split at h
    · cases h
    · split at h
      · cases h
      · cases h
        rfl

/-- Equal settings ask for the same configuration. -/
theorem requested_settings (h : settingsOf c = settingsOf c') : requested env c = requested env c' := by
  simp only [settingsOf, Settings.mk.injEq] at h
  obtain ⟨h1, h2, h3, h4, h5, h6⟩ := h
  simp only [requested, makeConfig, h1, h2, h3, h4, h5, h6]

theorem absolute_path {affinity : List Int} (h : c.Valid affinity) (dir : Str) :
    absolute dir c.spdkJsonConfig = c.spdkJsonConfig := if_pos h.path

/-- Two accepted configurations ask for the same runtime exactly when they differ in the order of the CPUs at most. -/
theorem requested_same {affinity affinity' : List Int} (hc : c.Valid affinity) (hc' : c'.Valid affinity')
    (hr : requested env c = .ok r) : requested env c' = .ok r ↔ (settingsOf c).Reordered (settingsOf c') := by
  obtain ⟨mask, hmask, hreq⟩ := requested_ok hr
  constructor
  · intro hr'
    obtain ⟨mask', hmask', hreq'⟩ := requested_ok hr'
    rw [hreq] at hreq'
    simp only [SpdkRuntimeConfig.mk.injEq, absolute_path hc, absolute_path hc', true_and] at hreq'
    obtain ⟨hpath, hmasks, hmemory, hhuge, hpci, hthreads⟩ := hreq'
    have hcpus := coreMask_inj hc.reactors.ne_nil hc.reactors.natural hc'.reactors.ne_nil hc'.reactors.natural
      (by rw [hmask, hmask', hmasks])
    exact ⟨hpath, (List.perm_ext_iff_of_nodup hc.reactors.nodup hc'.reactors.nodup).2 hcpus, hmemory, hhuge, hpci, hthreads⟩
  · rintro ⟨hpath, hcpus, hmemory, hhuge, hpci, hthreads⟩
    simp only [settingsOf] at hpath hcpus hmemory hhuge hpci hthreads
    have hmasks := coreMask_congr hc.reactors.ne_nil hc.reactors.natural fun cpu => hcpus.mem_iff
    rw [← hr]
    simp only [requested, makeConfig, hpath, hmasks, hmemory, hhuge, hpci, hthreads]

/-! ## What holds in every reachable process -/

structure Coherent (env : Environment) (p : Process) : Prop where
  claimed : ∀ s, p.runtimeSettings = some s → p.owner = some (text "external") ∧
    ∃ c affinity, s = settingsOf c ∧ c.Valid affinity
  passed : ∀ i c, p.construction i = .guarded c → p.runtimeSettings = some (settingsOf c) ∧ ∃ affinity, c.Valid affinity
  once : p.runtimeStartedOnce = p.started.isSome
  started : ∀ r, p.started = some r → ∃ c affinity, p.runtimeSettings = some (settingsOf c) ∧ c.Valid affinity ∧
    requested env c = .ok r
  live : ∀ r, p.live = some r → p.started = some r

theorem coherent_init (env : Environment) (owner : Option Str) : Coherent env { owner } := by
  refine ⟨nofun, nofun, rfl, nofun, ?_⟩
  intro r hr
  cases hr

theorem setStage_self (p : Process) (i : Nat) (stage : Stage) : (p.setStage i stage).construction i = stage :=
  Function.update_self ..

theorem setStage_other {i j : Nat} (h : j ≠ i) (p : Process) (stage : Stage) :
    (p.setStage i stage).construction j = p.construction j := Function.update_of_ne h ..

/-- Ending or advancing one construction. -/
theorem coherent_stage (h : Coherent env p) (i : Nat) {stage : Stage}
    (hstage : ∀ c, stage = .guarded c → p.runtimeSettings = some (settingsOf c) ∧ ∃ affinity, c.Valid affinity) :
    Coherent env (p.setStage i stage) := by
  refine ⟨h.claimed, ?_, h.once, h.started, h.live⟩
  intro j c hj
  rcases eq_or_ne j i with rfl | hne
  · rw [setStage_self] at hj
    exact hstage c hj
  · rw [setStage_other hne] at hj
    exact h.passed j c hj

/-- What the guard lets through has the settings that are claimed from then on. -/
theorem guardRuntime_ok (h : guardRuntime p c = .ok p') :
    (p.runtimeSettings = none ∨ p.runtimeSettings = some (settingsOf c)) ∧
    p' = { p with runtimeSettings := some (settingsOf c), owner := some (text "external") } := by
  unfold guardRuntime at h
  split at h
  · cases h
  · split at h
    · cases h
    · rename_i hsettings
      cases h
      refine ⟨?_, rfl⟩
      by_contra hno
      simp only [not_or] at hno
      exact hsettings hno

theorem coherent_guard (h : Coherent env p) {affinity : List Int} (hc : c.Valid affinity)
    (hp : guardRuntime p c = .ok p') :
    Coherent env p' := by
  obtain ⟨hsettings, rfl⟩ := guardRuntime_ok hp
  have hkeep : ∀ s, p.runtimeSettings = some s → s = settingsOf c := by
    intro s hs
    rcases hsettings with hnone | hsome
    · rw [hs] at hnone
      cases hnone
    · rw [hs] at hsome
      exact Option.some.inj hsome
  refine ⟨?_, ?_, h.once, ?_, h.live⟩
  · intro s hs
    cases hs
    exact ⟨rfl, c, affinity, rfl, hc⟩
  · intro i d hd
    obtain ⟨hs, hv⟩ := h.passed i d hd
    exact ⟨congrArg some (hkeep _ hs).symm, hv⟩
  · intro r hr
    obtain ⟨d, a, hs, hv, hreq⟩ := h.started r hr
    exact ⟨d, a, congrArg some (hkeep _ hs).symm, hv, hreq⟩

theorem makeRuntimeConfig_requested {isFile : Bool} {config : SpdkConfig} (hc : makeConfig c = .ok config)
    (h : makeRuntimeConfig env isFile config = .ok r) : requested env c = .ok r := by
  have hfile : isFile = true := by
    cases isFile with
    | true => rfl
    | false => cases h
  subst hfile
  rw [requested, hc]
  exact h

/-- The errors of `MakeRuntimeConfig` are invalid arguments. -/
theorem makeRuntimeConfig_error {isFile : Bool} {config : SpdkConfig} {e : Exn}
    (h : makeRuntimeConfig env isFile config = .error e) : e.kind = .invalidArgument := by
  unfold makeRuntimeConfig at h
  split at h
  · cases h
    rfl
  · split at h
    · cases h
      rfl
    · dsimp only at h
      cases hlevel : parsePrintLevel (resolveOption config.printLevel env.printLevel) with
      | ok level =>
        rw [hlevel] at h
        cases h
      | error e' =>
        rw [hlevel] at h
        cases h
        unfold parsePrintLevel at hlevel
        dsimp only at hlevel
        split at hlevel
        · cases hlevel
        · split at hlevel
          · cases hlevel
          · cases hlevel
            rfl

theorem live_erase {i : Nat} (h : Process.live { p with holders := p.holders.erase i } = some r) : p.live = some r := by
  unfold Process.live at h ⊢
  dsimp only at h
  split at h
  · cases h
  · rename_i hne
    rw [if_neg (fun h0 => hne (by rw [h0]; rfl))]
    exact h

theorem live_holders (p : Process) (holders : Finset Nat) (hne : p.live = some r) :
    Process.live { p with holders } = some r ∨ Process.live { p with holders } = none := by
  unfold Process.live at hne ⊢
  dsimp only
  split at hne
  · cases hne
  · split
    · exact .inr rfl
    · exact .inl hne

/-- Acquiring the runtime: it is shared, or started for the first time, or the construction fails. -/
theorem acquire_cases {isFile : Bool} {start : Start} {i : Nat} {config : SpdkConfig} (hc : makeConfig c = .ok config) :
    (acquire env isFile start p i config).2 = p ∨
    (∃ r, p.live = some r ∧ (acquire env isFile start p i config).2 = { p with holders := insert i p.holders }) ∨
    (∃ r, requested env c = .ok r ∧ p.live = none ∧ p.runtimeStartedOnce = false ∧
      ((acquire env isFile start p i config).2 = { p with runtimeStartedOnce := true, started := some r } ∨
       (acquire env isFile start p i config).2 = { p with
          runtimeStartedOnce := true, started := some r, activeRuntime := some r, holders := {i} })) := by
  unfold acquire
  split
  · exact .inl rfl
  · rename_i r hr
    have hreq := makeRuntimeConfig_requested hc hr
    split
    · rename_i current hlive
      split
      · exact .inl rfl
      · exact .inr (.inl ⟨current, hlive, rfl⟩)
    · rename_i hlive
      split
      · exact .inl rfl
      · rename_i honce
        have honce := Bool.eq_false_iff.2 honce
        cases start with
        | unknownLogFlag flag => exact .inl rfl
        | failed rc strerror => exact .inr (.inr ⟨r, hreq, hlive, honce, .inl rfl⟩)
        | withoutThread => exact .inr (.inr ⟨r, hreq, hlive, honce, .inl rfl⟩)
        | started => exact .inr (.inr ⟨r, hreq, hlive, honce, .inr rfl⟩)

theorem coherent_acquire (h : Coherent env p) {i : Nat} (hi : p.construction i = .guarded c) {isFile : Bool}
    {start : Start} {config : SpdkConfig} (hc : makeConfig c = .ok config) :
    Coherent env (acquire env isFile start p i config).2 := by
  obtain ⟨hsettings, affinity, hv⟩ := h.passed i c hi
  have hcases : (acquire env isFile start p i config).2 = p ∨ _ := acquire_cases hc
  rcases hcases with heq | ⟨r, hlive, heq⟩ | ⟨r, hreq, hlive, honce, heq⟩
  · rw [heq]
    exact h
  · rw [heq]
    refine ⟨h.claimed, h.passed, h.once, h.started, ?_⟩
    intro r' hr'
    rcases live_holders p (insert i p.holders) hlive with hl | hl
    · rw [hl] at hr'
      cases hr'
      exact h.live r hlive
    · rw [hl] at hr'
      cases hr'
  · have hstarted : ∀ r', some r = some r' → ∃ c affinity, p.runtimeSettings = some (settingsOf c) ∧ c.Valid affinity ∧
        requested env c = .ok r' := by
      intro r' hr'
      cases hr'
      exact ⟨c, affinity, hsettings, hv, hreq⟩
    rcases heq with heq | heq
    · rw [heq]
      refine ⟨h.claimed, h.passed, rfl, hstarted, ?_⟩
      intro r' hr'
      have hr' : p.live = some r' := hr'
      rw [hlive] at hr'
      cases hr'
    · rw [heq]
      refine ⟨h.claimed, h.passed, rfl, hstarted, ?_⟩
      intro r' hr'
      unfold Process.live at hr'
      dsimp only at hr'
      rw [if_neg (Finset.singleton_ne_empty i)] at hr'
      exact hr'

theorem makeConfig_valid {affinity : List Int} (h : c.Valid affinity) : ∃ config, makeConfig c = .ok config := by
  unfold makeConfig
  rw [makeCoreMask_eq h.reactors.ne_nil h.reactors.natural]
  exact ⟨_, rfl⟩

theorem coherent_step {e : Event} (h : Coherent env p) (hs : step env p e = some p') : Coherent env p' := by
  cases e with
  | construct i host data =>
    simp only [step] at hs
    split at hs
    · split at hs
      · cases hs
        exact coherent_stage h i nofun
      · rename_i c hdict
        split at hs
        · cases hs
          exact coherent_stage h i nofun
        · rename_i q hq
          cases hs
          have hv := fromDict_valid hdict
          refine coherent_stage (coherent_guard h hv hq) i ?_
          intro d hd
          cases hd
          obtain ⟨-, rfl⟩ := guardRuntime_ok hq
          exact ⟨rfl, _, hv⟩
    · cases hs
  | fail i =>
    simp only [step] at hs
    split at hs
    · cases hs
      exact coherent_stage h i nofun
    · cases hs
  | acquire i isFile start =>
    simp only [step] at hs
    split at hs
    · rename_i c hi
      obtain ⟨-, affinity, hv⟩ := h.passed i c hi
      obtain ⟨config, hconfig⟩ := makeConfig_valid hv
      have hacquire : acquireStep env isFile start p i c = acquire env isFile start p i config := by
        rw [acquireStep, hconfig]
      have hnext : Coherent env (acquire env isFile start p i config).2 := coherent_acquire h hi hconfig
      rw [hacquire] at hs
      split at hs
      · rename_i heq
        rw [heq] at hnext
        cases hs
        exact coherent_stage hnext i nofun
      · rename_i heq
        rw [heq] at hnext
        cases hs
        exact coherent_stage hnext i nofun
    · cases hs
  | release i =>
    simp only [step] at hs
    split at hs
    · cases hs
      have hfewer : Coherent env { p with holders := p.holders.erase i } := by
        refine ⟨h.claimed, h.passed, h.once, h.started, ?_⟩
        intro r hr
        exact h.live r (live_erase hr)
      exact coherent_stage hfewer i nofun
    · cases hs

/-! ## Agreement -/

theorem guard_refuses (h : Coherent env p) : guardRuntime p c = .error .settings ↔
    ∃ s, p.runtimeSettings = some s ∧ s ≠ settingsOf c := by
  unfold guardRuntime
  cases hs : p.runtimeSettings with
  | none =>
    constructor
    · intro heq
      split at heq
      · cases heq
      · split at heq
        · rename_i hne
          exact absurd rfl hne.1
        · cases heq
    · rintro ⟨s, heq, -⟩
      cases heq
  | some s =>
    have howner := (h.claimed s hs).1
    rw [if_neg (by rw [howner]; simp)]
    constructor
    · intro heq
      split at heq
      · rename_i hne
        exact ⟨s, rfl, fun h0 => hne.2 (congrArg some h0)⟩
      · cases heq
    · rintro ⟨s', heq, hne⟩
      cases heq
      rw [if_pos ⟨nofun, fun h0 => hne (Option.some.inj h0)⟩]

theorem agree_iff (h : Coherent env p) {affinity : List Int} (hc : c.Valid affinity) :
    GuardsAgree env p c ↔ Settled p c := by
  constructor
  · intro hagree s hs
    rcases eq_or_ne s (settingsOf c) with heq | hne
    · exact .inl heq
    · right
      obtain ⟨r, hr, hdiff⟩ := hagree.justified ((guard_refuses h).2 ⟨s, hs, hne⟩)
      obtain ⟨d, a, hsettings, hd, hreq⟩ := h.started r hr
      rw [hs] at hsettings
      cases hsettings
      exact ⟨by rw [h.once, hr]; rfl, fun hre => hdiff ((requested_same hd hc hreq).2 hre)⟩
  · intro hsettled
    have hrefused : guardRuntime p c = .error .settings → ∃ r, p.started = some r ∧ requested env c ≠ .ok r := by
      intro href
      obtain ⟨s, hs, hne⟩ := (guard_refuses h).1 href
      rcases hsettled s hs with heq | ⟨honce, hdiff⟩
      · exact absurd heq hne
      · rw [h.once] at honce
        obtain ⟨r, hr⟩ := Option.isSome_iff_exists.1 honce
        obtain ⟨d, a, hsettings, hd, hreq⟩ := h.started r hr
        rw [hs] at hsettings
        cases hsettings
        exact ⟨r, hr, fun hreq' => hdiff ((requested_same hd hc hreq).1 hreq')⟩
    refine ⟨hrefused, ?_, ?_⟩
    · intro r hlive hreq href
      obtain ⟨r', hr', hdiff⟩ := hrefused href
      rw [h.live r hlive] at hr'
      cases hr'
      exact hdiff hreq
    · intro honce href
      obtain ⟨r, hr, -⟩ := hrefused href
      rw [h.once, hr] at honce
      cases honce

/-! ### Its texts, told apart by their first letters -/

theorem unknownFlag_first (flag : Str) : (unknownFlag flag).toList.head? = some 'u' := by
  unfold unknownFlag
  rw [String.toList_append, String.toList_append, List.append_assoc, List.head?_append]
  have hfirst : ("unknown SPDK log flag '" : String).toList.head? = some 'u' := by decide +kernel
  rw [hfirst]
  rfl

theorem spdkError_first (strerror : Nat → String) {operation : String} (rc : Int) {first : Char}
    (h : operation.toList.head? = some first) : (spdkError strerror operation rc).toList.head? = some first := by
  simp only [spdkError, String.toList_append, List.append_assoc, List.head?_append, h, Option.some_or]

theorem differs_ne (first : Char) (what : String) (h : what.toList.head? = some first) (hne : first ≠ 'a') :
    (.error ⟨.runtimeError, what⟩ : Except Exn Unit) ≠ .error differs := by
  intro heq
  have hdiffers : differs.what.toList.head? = some 'a' := by decide +kernel
  cases heq
  exact hne (Option.some.inj (h.symm.trans hdiffers))

/-- What the guard has let through, `Acquire` does not find different. -/
theorem acquire_same (h : Coherent env p) {i : Nat} (hi : p.construction i = .guarded c) (isFile : Bool) (start : Start) :
    (acquireStep env isFile start p i c).1 ≠ .error differs := by
  obtain ⟨hsettings, affinity, hv⟩ := h.passed i c hi
  obtain ⟨config, hconfig⟩ := makeConfig_valid hv
  rw [acquireStep, hconfig]
  dsimp only
  unfold acquire
  split
  · rename_i e he
    have hkind := makeRuntimeConfig_error he
    intro heq
    cases heq
    cases hkind
  · rename_i r hr
    split
    · rename_i current hlive
      obtain ⟨d, a, hsettings', hd, hreq⟩ := h.started current (h.live current hlive)
      rw [hsettings] at hsettings'
      have hsame : requested env _ = requested env _ := requested_settings (Option.some.inj hsettings')
      rw [makeRuntimeConfig_requested hconfig hr, hreq] at hsame
      rw [if_neg (fun hne => hne (Except.ok.inj hsame).symm)]
      nofun
    · split
      · exact differs_ne 't' _ (by decide +kernel) (by decide)
      · cases start with
        | unknownLogFlag flag => exact differs_ne 'u' _ (unknownFlag_first flag) (by decide)
        | failed rc strerror => exact differs_ne 'S' _ (spdkError_first _ rc (by decide +kernel)) (by decide)
        | withoutThread => exact differs_ne 'S' _ (by decide +kernel) (by decide)
        | started => nofun

/-- **The two runtime guards**: after any constructions, failures and closes in one process, `_guard_runtime` agrees
with `Acquire` on the next accepted configuration exactly when it is `Settled`; and no construction it has let
through is refused by `Acquire` for a different configuration. -/
theorem guards_agree {owner : Option Str} {run : List Event}
    (hrun : runFrom (step env) { owner } run = some p) :
    (∀ host data c, fromDict host data = .ok c → (GuardsAgree env p c ↔ Settled p c)) ∧
    ∀ i c isFile start, p.construction i = .guarded c → (acquireStep env isFile start p i c).1 ≠ .error differs := by
  have h : Coherent env p := by
    refine run_invariant (I := Coherent env) ?_ (coherent_init env owner) (guarded_true _ run) hrun
    intro _ _ _ h _ hs
    exact coherent_step h hs
  exact ⟨fun host data c hc => agree_iff h (fromDict_valid hc), fun i c isFile start hi => acquire_same h hi isFile start⟩

/-! ## Two constructions -/

def plainEnvironment : Environment := ⟨none, none, none, text "/"⟩

/-- A construction that starts the application. -/
def startedRun : List Event := [.construct 0 quadHost (parameters [1, 2] 1024), .acquire 0 true .started]

/-- Another construction passes the guard, and the first connector is closed. -/
def closedRun : List Event := startedRun ++ [.construct 1 quadHost (parameters [1, 2] 1024), .release 0]

/-- The parameters of a construction that is about to call `Acquire`. -/
def Stage.config : Stage → Option SpdkConnectorConfig
  | .guarded c => some c
  | _ => none

theorem Stage.config_eq {stage : Stage} (h : stage.config = some c) : stage = .guarded c := by
  cases stage <;> simp_all [Stage.config]

/-- A third one has other settings, and the second goes on. -/
theorem guards_agree_closed : ∃ p c d, runFrom (step plainEnvironment) { owner := none } closedRun = some p ∧
    p.runtimeStartedOnce = true ∧ fromDict quadHost (parameters [3] 1024) = .ok c ∧
    (GuardsAgree plainEnvironment p c ↔ Settled p c) ∧ p.construction 1 = .guarded d ∧
    (acquireStep plainEnvironment true .started p 1 d).1 ≠ .error differs := by
  have hend : (runFrom (step plainEnvironment) { owner := none } closedRun).any (fun p =>
      p.runtimeStartedOnce && (p.construction 1).config.isSome) = true := by decide +kernel
  have hnext : (fromDict quadHost (parameters [3] 1024)).toOption.isSome = true := by decide +kernel
  obtain ⟨p, hrun, hp⟩ := (Option.any_eq_true _ _).1 hend
  obtain ⟨honce, hsome⟩ := Bool.and_eq_true_iff.1 hp
  obtain ⟨d, hd⟩ := Option.isSome_iff_exists.1 hsome
  obtain ⟨c, hc⟩ := Option.isSome_iff_exists.1 hnext
  have hc := ok_of_toOption hc
  have hd := Stage.config_eq hd
  exact ⟨p, c, d, hrun, honce, hc, (guards_agree hrun).1 _ _ c hc, hd, (guards_agree hrun).2 1 d true .started hd⟩

/-- A construction that fails before `Acquire`. -/
def failedRun : List Event := [.construct 0 quadHost (parameters [1, 2] 1024), .fail 0]

def refused (p : Process) (c : SpdkConnectorConfig) : Bool :=
  match guardRuntime p c with
  | .error .settings => true
  | _ => false

theorem refused_eq (h : refused p c = true) : guardRuntime p c = .error .settings := by
  unfold refused at h
  split at h
  · assumption
  · cases h

/-- The same CPUs in another order are refused although `Acquire` would share the running application, and after a
failure before the start every other configuration is refused although none was started. -/
theorem guards_disagree :
    (∃ p c, runFrom (step plainEnvironment) { owner := none } startedRun = some p ∧
      fromDict quadHost (parameters [2, 1] 1024) = .ok c ∧ ¬ GuardsAgree plainEnvironment p c) ∧
    ∃ p c, runFrom (step plainEnvironment) { owner := none } failedRun = some p ∧
      fromDict quadHost (parameters [1, 2] 512) = .ok c ∧ ¬ GuardsAgree plainEnvironment p c := by
  have hstarted : (runFrom (step plainEnvironment) { owner := none } startedRun).any (fun p =>
      (fromDict quadHost (parameters [2, 1] 1024)).toOption.any fun c =>
        refused p c && p.live.isSome && decide ((requested plainEnvironment c).toOption = p.live)) = true := by
    decide +kernel
  have hfailed : (runFrom (step plainEnvironment) { owner := none } failedRun).any (fun p =>
      (fromDict quadHost (parameters [1, 2] 512)).toOption.any fun c =>
        refused p c && !p.runtimeStartedOnce) = true := by
    decide +kernel
  obtain ⟨p, hp, hs⟩ := (Option.any_eq_true _ _).1 hstarted
  obtain ⟨c, hc, hs⟩ := (Option.any_eq_true _ _).1 hs
  obtain ⟨q, hq, hf⟩ := (Option.any_eq_true _ _).1 hfailed
  obtain ⟨d, hd, hf⟩ := (Option.any_eq_true _ _).1 hf
  simp only [Bool.and_eq_true, decide_eq_true_eq, Bool.not_eq_true'] at hs hf
  obtain ⟨⟨hrefused, hlive⟩, hshared⟩ := hs
  obtain ⟨r, hr⟩ := Option.isSome_iff_exists.1 hlive
  rw [hr] at hshared
  refine ⟨⟨p, c, hp, ok_of_toOption hc, ?_⟩, q, d, hq, ok_of_toOption hd, ?_⟩
  · exact fun h => h.shared r hr (ok_of_toOption hshared) (refused_eq hrefused)
  · exact fun h => h.unstarted hf.2 (refused_eq hf.1)

end Plugin
end SpdkConnector
