import SpdkConnector.NvmeKv.Truth
import Mathlib.Data.Set.Function

/-!
# What a get of the native connector delivers

One call at a time, no wait given up. `Serial` keeps the namespace equal to the values the calls so far have
stored, with the effect of the running call's command; the staging buffer of a get holds `fit v len` once its
RETRIEVE has run, and nothing looks at the size the completion reports: a stored value of another length is
cut or filled up with zeros.
-/
namespace SpdkConnector
namespace SpdkNvmeKvConnector

open Codec Interleaving

variable {m : Nat} {s s' : Sys} {v w : Nat} {a b : Activation} {act : Action} {keys : Set Bytes}
  {map : Bytes → Option Bytes}

/-- What a call that has ended has done to the stored values. -/
def applied (map : Bytes → Option Bytes) : Call → Outcome → Bytes → Option Bytes
  | .set key buf, .stored => Function.update map key (some buf)
  | .delete key, .answer true => Function.update map key none
  | _, _ => map

/-- The values stored after the calls, by their outcomes. -/
def storedAfter (map : Bytes → Option Bytes) (calls : List (Nat × Call × Outcome)) : Bytes → Option Bytes :=
  calls.foldl (fun map e => applied map e.2.1 e.2.2) map

/-- A value in a zeroed buffer of the length. -/
def fit (value : Bytes) (len : Nat) : Bytes :=
  value.take len ++ List.replicate (len - value.length) 0

/-- One call at a time, and no wait for a command is given up. -/
def OneByOne (s : Sys) : Nat × Action → Prop
  | (_, .call _) => ∀ v, (s.connection v).active = none
  | (_, .processed false) | (_, .clock true) => False
  | _ => True

theorem fit_length (value : Bytes) (len : Nat) : (fit value len).length = len := by
  simp only [fit, List.length_append, List.length_take, List.length_replicate]
  omega

theorem fit_eq_iff (value : Bytes) (len : Nat) : fit value len = value ↔ value.length = len := by
  constructor
  · intro h
    rw [← h, fit_length]
  · rintro rfl
    simp [fit]

/-- What RETRIEVE makes of a zeroed buffer. -/
theorem transferred (value : Bytes) (len : Nat) :
    value.take (min value.length len) ++ List.replicate (len - min value.length len) 0 = fit value len := by
  unfold fit
  rcases Nat.le_total value.length len with h | h
  · simp [Nat.min_eq_left h, List.take_of_length_le h]
  · simp [Nat.min_eq_right h, Nat.sub_eq_zero_of_le h]

/-! ## The running call -/

/-- The stored values with what the command of the call has done. -/
def Activation.effect (a : Activation) (p : Progress) (map : Bytes → Option Bytes) : Bytes → Option Bytes :=
  if p.status? = some .success then
    match a.operation, a.call with
    | .store, .set key buf => Function.update map key (some buf)
    | .delete, .delete key => Function.update map key none
    | _, _ => map
  else map

/-- The staging buffer of the call. -/
def Activation.content (a : Activation) (p : Progress) (map : Bytes → Option Bytes) : Bytes :=
  match a.call with
  | .get key len => if p.status? = some .success then fit ((map key).getD []) len else List.replicate len 0
  | .set _ buf => buf
  | .exists _ | .delete _ => []

/-- The namespace and the staging buffer while a call is this far. -/
structure Holds (keys : Set Bytes) (map : Bytes → Option Bytes) (s : Sys) (w : Nat) (a : Activation) (p : Progress) :
    Prop where
  active : (s.connection w).active = some a
  proper : a.Proper
  «at» : a.At (s.connection w) p
  key : a.call.key ∈ keys
  records : ∀ key ∈ keys, s.records (deriveKey key) = a.effect p map key
  staged : a.pc ≠ .entry → ∀ len, a.call.stagingLen = some len →
    ∃ d, a.staging = some d ∧ s.dma d = some (a.content p map)
  found : ∀ key len, a.call = .get key len → p.status? = some .success → map key ≠ none

theorem effect_unrun {p : Progress} (h : p.status? = none) : a.effect p map = map := by
  simp [Activation.effect, h]

theorem effect_failed {p : Progress} (h : p.status? ≠ some .success) : a.effect p map = map := by
  simp [Activation.effect, h]

/-- Only whether the command has succeeded matters. -/
theorem content_congr {p q : Progress} (hcall : b.call = a.call)
    (h : p.status? = some .success ↔ q.status? = some .success) : a.content p map = b.content q map := by
  unfold Activation.content
  rw [hcall]
  simp only [h]

theorem effect_congr {p q : Progress} (hcall : b.call = a.call) (hop : b.operation = a.operation)
    (h : p.status? = some .success ↔ q.status? = some .success) : a.effect p map = b.effect q map := by
  unfold Activation.effect
  rw [hcall, hop]
  simp only [h]

theorem Proper.operation (h : a.Proper) (hcall : ∀ key, a.call ≠ .delete key) : a.operation = a.call.operation := by
  rcases h with h | ⟨⟨key, h⟩, -⟩
  · exact h
  · exact absurd h (hcall key)

/-- A call whose operation is STORE, RETRIEVE or DELETE is the one that has it. -/
theorem Proper.call (h : a.Proper) :
    (a.operation = .retrieve → ∃ key len, a.call = .get key len) ∧
    (a.operation = .store → ∃ key buf, a.call = .set key buf) ∧
    (a.operation = .delete → ∃ key, a.call = .delete key) := by
  rcases h with h | ⟨h, hop⟩
  · rw [h]
    cases a.call with
    | get key len => exact ⟨fun _ => ⟨key, len, rfl⟩, nofun, nofun⟩
    | set key buf => exact ⟨nofun, fun _ => ⟨key, buf, rfl⟩, nofun⟩
    | «exists» | delete => exact ⟨nofun, nofun, nofun⟩
  · rw [hop]
    exact ⟨nofun, nofun, fun _ => h⟩

/-- The device runs the command of the call. -/
theorem holds_run {cmd : Command} {fault : Bool} {st : Status} {t : Sys} (hinj : Set.InjOn deriveKey keys)
    (h : Holds keys map s w a .pending) (hissued : a.Issued cmd) (hran : Ran s cmd fault st t)
    (hactive : (s'.connection w).active = some a) (hat : a.At (s'.connection w) (.ran st))
    (hrecords : s'.records = t.records) (hdma : s'.dma = t.dma) : Holds keys map s' w a (.ran st) := by
  have hpc : a.pc ≠ .entry := by
    intro hentry
    simpa [Activation.Waits, hentry] using hat.1
  have hbefore : ∀ key ∈ keys, s.records (deriveKey key) = map key := by
    intro key hkey
    rw [h.records key hkey, effect_unrun rfl]
  have hcalls := Proper.call h.proper
  have hupdate : ∀ key ∈ keys, ∀ o, Function.update s.records (deriveKey a.call.key) o (deriveKey key) =
      Function.update map a.call.key o key := by
    intro key hkey o
    by_cases hk : key = a.call.key
    · simp [hk]
    · rw [Function.update_of_ne hk, Function.update_of_ne fun heq => hk (hinj hkey h.key heq)]
      exact hbefore key hkey
  have hkeep : st ≠ .success → t = s → Holds keys map s' w a (.ran st) := by
    rintro hst rfl
    have hnot : (Progress.ran st).status? ≠ some .success := fun heq => hst (Option.some.inj heq)
    refine ⟨hactive, h.proper, hat, h.key, ?_, ?_, fun _ _ _ heq => absurd heq hnot⟩
    · intro key hkey
      rw [hrecords, effect_failed hnot]
      exact hbefore key hkey
    · intro _ len hlen
      obtain ⟨d, hd, hbytes⟩ := h.staged hpc len hlen
      refine ⟨d, hd, ?_⟩
      rw [hdma, hbytes, content_congr rfl (p := .pending) (q := .ran st)]
      simp [Progress.status?, hst]
  cases hran with
  | faulted => exact hkeep (by simp) rfl
  | absent => exact hkeep (by simp) rfl
  | stored hop =>
    have hop' := hissued.operation.symm.trans hop
    obtain ⟨key₀, buf, hcall⟩ := hcalls.2.1 hop'
    obtain ⟨d, hd, hbytes⟩ := h.staged hpc buf.length (by rw [hcall]; rfl)
    have hvalue : ((cmd.staging.bind s.dma).getD []).take cmd.len = buf := by
      rw [hissued.staging, hissued.len, hd, Option.bind_some, hbytes, hcall]
      simp [Activation.content, Call.stagingLen, hcall]
    refine ⟨hactive, h.proper, hat, h.key, ?_, ?_, ?_⟩
    · intro key hkey
      rw [hrecords, hissued.deviceKey, hvalue]
      simpa [Activation.effect, Progress.status?, hop', hcall, Call.key] using hupdate key hkey (some buf)
    · intro _ len hlen
      refine ⟨d, hd, ?_⟩
      rw [hdma, hbytes]
      simp [Activation.content, hcall]
    · intro key len hget
      rw [hcall] at hget
      cases hget
  | found hop =>
    have hop' := hissued.operation.symm.trans hop
    have hnone : a.call.stagingLen = none := by
      rcases h.proper with ho | ⟨-, ho⟩
      · cases hcall : a.call <;> simp [hop', hcall, Call.operation] at ho <;> rfl
      · rw [hop'] at ho
        cases ho
    refine ⟨hactive, h.proper, hat, h.key, ?_, ?_, ?_⟩
    · intro key hkey
      rw [hrecords]
      simpa [Activation.effect, hop'] using hbefore key hkey
    · intro _ len hlen
      rw [hnone] at hlen
      cases hlen
    · intro key len hget
      rw [hget] at hnone
      cases hnone
  | removed hop =>
    have hop' := hissued.operation.symm.trans hop
    obtain ⟨key₀, hcall⟩ := hcalls.2.2 hop'
    refine ⟨hactive, h.proper, hat, h.key, ?_, ?_, ?_⟩
    · intro key hkey
      rw [hrecords, hissued.deviceKey]
      simpa [Activation.effect, Progress.status?, hop', hcall, Call.key] using hupdate key hkey none
    · intro _ len hlen
      rw [hcall] at hlen
      cases hlen
    · intro key len hget
      rw [hcall] at hget
      cases hget
  | @read value hop hk =>
    have hop' := hissued.operation.symm.trans hop
    obtain ⟨key₀, len, hcall⟩ := hcalls.1 hop'
    obtain ⟨d, hd, hbytes⟩ := h.staged hpc len (by rw [hcall]; rfl)
    have hmap : map key₀ = some value := by
      rw [hissued.deviceKey, hbefore _ h.key, hcall] at hk
      exact hk
    refine ⟨hactive, h.proper, hat, h.key, ?_, ?_, ?_⟩
    · intro key hkey
      rw [hrecords]
      simpa [Activation.effect, hop'] using hbefore key hkey
    · intro _ len' hlen
      obtain rfl : len = len' := by simpa [hcall, Call.stagingLen] using hlen
      refine ⟨d, hd, ?_⟩
      have hcontent : a.content (.ran .success) map = fit value len := by
        simp [Activation.content, hcall, Progress.status?, hmap]
      have hzero : s.dma d = some (List.replicate len 0) := by
        simpa [Activation.content, hcall, Progress.status?] using hbytes
      rw [hdma, hcontent, hissued.staging, hd, hissued.len, hcall]
      simp [hzero, Call.stagingLen, transferred]
    · intro key len' hget _
      rw [hcall] at hget
      cases hget
      simp [hmap]

/-- The call goes on at the same command. -/
theorem Holds.goes {p q : Progress} (h : Holds keys map s w a p) (hcall : b.call = a.call)
    (hop : b.operation = a.operation) (hq : p.status? = some .success ↔ q.status? = some .success)
    (hactive : (s'.connection w).active = some b) (hat : b.At (s'.connection w) q) (hrecords : s'.records = s.records)
    (hstaged : b.pc ≠ .entry → ∀ len, a.call.stagingLen = some len →
      ∃ d, b.staging = some d ∧ s'.dma d = some (a.content p map)) : Holds keys map s' w b q := by
  refine ⟨hactive, ?_, hat, hcall ▸ h.key, ?_, ?_, ?_⟩
  · have := h.proper
    unfold Activation.Proper at this ⊢
    rwa [hcall, hop]
  · intro key hkey
    rw [hrecords, ← effect_congr hcall hop hq]
    exact h.records key hkey
  · rw [← content_congr hcall hq, hcall]
    exact hstaged
  · rw [hcall, ← hq]
    exact h.found

/-- What a call leaves behind when it ends with this outcome. -/
structure Left (keys : Set Bytes) (map : Bytes → Option Bytes) (s : Sys) (w : Nat) (a : Activation) (o : Outcome) :
    Prop where
  outstanding : (s.connection w).outstanding = []
  records : ∀ key ∈ keys, s.records (deriveKey key) = applied map a.call o key
  whole : ∀ key len, a.call = .get key len → ∀ buf, o = .filled buf →
    ∃ value, map key = some value ∧ buf = fit value len

/-- The effect of a call that has ended is the one its outcome tells. -/
theorem holds_ends {p : Progress} {o : Outcome} (h : Holds keys map s w a p) (hends : Ends s a p act o)
    (hok : OneByOne s (w, act)) : Left keys map s w a o := by
  have hraised : ∀ what, applied map a.call (.raised what) = map := by
    intro what
    cases a.call <;> rfl
  have hdone : (s.connection w).outstanding = [] := by
    cases hends with
    | unprepared | refused => exact h.at.1
    | broken | expired => exact hok.elim
    | _ => exact h.at.2.1
  have hunchanged : p.status? ≠ some .success ∨ a.operation = .exist ∨ a.operation = .retrieve → a.effect p map = map := by
    intro hor
    unfold Activation.effect
    split
    · rcases hor with hor | hor | hor
      · contradiction
      · rw [hor]
      · rw [hor]
    · rfl
  refine ⟨hdone, ?_, ?_⟩
  · intro key hkey
    rw [h.records key hkey]
    cases hends with
    | unprepared | refused => rw [hunchanged (.inl nofun), hraised]
    | broken | expired => exact hok.elim
    | failed _ hst => rw [hunchanged (.inl fun heq => hst (Option.some.inj heq)), hraised]
    | filled hcall =>
      have hop : a.operation = .retrieve := by rw [Proper.operation h.proper (by simp [hcall]), hcall]; rfl
      rw [hunchanged (.inr (.inr hop)), hcall]
      rfl
    | stored hcall =>
      have hop : a.operation = .store := by rw [Proper.operation h.proper (by simp [hcall]), hcall]; rfl
      simp [Activation.effect, Progress.status?, hop, hcall, applied]
    | «exists» hcall =>
      have hop : a.operation = .exist := by rw [Proper.operation h.proper (by simp [hcall]), hcall]; rfl
      rw [hunchanged (.inr (.inl hop)), hcall]
      rfl
    | absent hcall hop => rw [hunchanged (.inr (.inl hop)), hcall]; rfl
    | deleted hcall hop => simp [Activation.effect, Progress.status?, hop, hcall, applied]
  · intro key len hcall buf ho
    subst ho
    cases hends with
    | filled hcall' =>
      rw [hcall] at hcall'
      cases hcall'
      have hpc : a.pc ≠ .entry := by
        intro hentry
        simpa [Activation.Waits, hentry] using h.at.1
      obtain ⟨value, hvalue⟩ := Option.ne_none_iff_exists'.1 (h.found key len hcall rfl)
      obtain ⟨d, hd, hbytes⟩ := h.staged hpc len (by rw [hcall]; rfl)
      refine ⟨value, hvalue, ?_⟩
      have hcontent : a.content (.delivered .success) map = fit value len := by
        simp [Activation.content, hcall, Progress.status?, hvalue]
      rw [hd, Option.bind_some, hbytes, hcontent, Option.getD_some]
      exact List.take_of_length_le (by rw [fit_length])

/-- **One step of the running call.** -/
theorem holds_step {p : Progress} (hinj : Set.InjOn deriveKey keys) (h : Holds keys map s w a p)
    (hok : OneByOne s (w, act)) (hs : step m s (w, act) = some s') :
    (ended m s (w, act) = [] ∧ ∃ b q, Holds keys map s' w b q) ∨
    ∃ o, s' = leave s w a o ∧ Left keys map s w a o ∧ ended m s (w, act) = [(w, a.call, o)] := by
  cases call_step h.active h.at h.proper hs with
  | moves own same next staged active at' records dma quiet =>
    refine .inl ⟨ended_quiet hs quiet, _, _, h.goes same.call same.operation ?_ active at' records ?_⟩
    · rcases next with rfl | ⟨rfl, rfl⟩ <;> rfl
    · intro _ len hlen
      rw [same.staging, dma]
      refine h.staged (fun hentry => ?_) len hlen
      rw [staged hentry] at hlen
      cases hlen
  | @prepares _ _ _ _ len d call operation staging hlen free active at' records dma quiet =>
    refine .inl ⟨ended_quiet hs quiet, _, _, h.goes call operation .rfl active at' records ?_⟩
    intro _ len' hlen'
    refine ⟨d, staging, ?_⟩
    rw [dma, Function.update_self]
    cases hcall : a.call <;> simp [hcall, Activation.content, Call.initial, Progress.status?, Call.stagingLen] at hlen ⊢
  | runs issued hcmd unrun ran active at' records dma quiet =>
    exact .inl ⟨ended_quiet hs quiet, a, _, holds_run hinj h issued ran active at' records dma⟩
  | delivers issued hcmd status active at' records dma quiet =>
    refine .inl ⟨ended_quiet hs quiet, a, .delivered _, h.goes rfl rfl .rfl active at' records ?_⟩
    rw [dma]
    exact h.staged
  | deletes hcall hop active at' records dma quiet =>
    refine .inl ⟨ended_quiet hs quiet, _, _, active, .inr ⟨⟨_, hcall⟩, rfl⟩, at', h.key, ?_, ?_, ?_⟩
    · intro key hkey
      rw [records, h.records key hkey, effect_unrun (a := { a with operation := .delete, pc := .entry }) (p := .before) rfl]
      simp [Activation.effect, hop]
    · intro _ len hlen
      simp [hcall, Call.stagingLen] at hlen
    · intro key len hget
      simp [hcall] at hget
  | ends hends => exact .inr ⟨_, rfl, holds_ends h hends hok, ended_leave hs⟩

/-! ## A run of calls -/

/-- Between calls the namespace holds the stored values; during one, what `Holds` says. -/
structure Serial (keys : Set Bytes) (map : Bytes → Option Bytes) (s : Sys) : Prop where
  idle : ∀ v, (s.connection v).active = none → (s.connection v).outstanding = []
  running : (∀ v, (s.connection v).active = none) ∧ (∀ key ∈ keys, s.records (deriveKey key) = map key) ∨
    ∃ w a p, (∀ v, v ≠ w → (s.connection v).active = none) ∧ Holds keys map s w a p

/-- The calls that begin are calls for these keys. -/
def Among (keys : Set Bytes) (_ : Sys) : Nat × Action → Prop
  | (_, .call call) => call.key ∈ keys
  | _ => True

theorem serial_init (records : Bytes → Option Bytes) (keys : Set Bytes) :
    Serial keys (fun key => records (deriveKey key)) (Sys.init records) :=
  ⟨fun _ _ => rfl, .inl ⟨fun _ => rfl, fun _ _ => rfl⟩⟩

/-- **One step of a run of calls**, with what a get it ends has delivered. -/
theorem serial_step (hinj : Set.InjOn deriveKey keys) (h : Serial keys map s) (hok : OneByOne s (v, act))
    (hkeys : Among keys s (v, act)) (hs : step m s (v, act) = some s') :
    Serial keys (storedAfter map (ended m s (v, act))) s' ∧
    ∀ w key len buf, (w, .get key len, .filled buf) ∈ ended m s (v, act) →
      ∃ value, map key = some value ∧ buf = fit value len := by
  have hother : ∀ u, u ≠ v → s'.connection u = s.connection u := fun u hu => step_ne hu hs
  rcases h.running with ⟨hidle, hrecords⟩ | ⟨w, a, p, hidle, hholds⟩
  · cases step_cases hs with
    | @call call _ =>
      have hquiet : Quiet s (s.goto v ⟨call, call.operation, .entry, none, 0, 0⟩) v := .refl (by simp [Sys.goto])
      rw [ended_quiet hs hquiet]
      refine ⟨⟨?_, .inr ⟨v, ⟨call, call.operation, .entry, none, 0, 0⟩, .before, ?_, ?_⟩⟩, by simp⟩
      · intro u hu
        by_cases huv : u = v
        · subst huv
          simp [Sys.goto] at hu
        · rw [hother u huv]
          exact h.idle u (hidle u)
      · intro u huv
        rw [hother u huv]
        exact hidle u
      · refine ⟨by simp [Sys.goto], .inl rfl, ⟨by simpa [Sys.goto] using h.idle v (hidle v), .inl rfl⟩, hkeys, ?_,
          fun hne => absurd rfl hne, by rintro - - - ⟨⟩⟩
        intro key hkey
        rw [effect_unrun rfl]
        exact hrecords key hkey
    | execute hexec =>
      obtain ⟨cmd, st, t, hcmd, -⟩ := execute_cases hexec
      simp [h.idle v (hidle v)] at hcmd
    | enter active | submit active | settle active | poll active | deliver active | polled active | broken active
      | again active | expired active =>
      rw [hidle v] at active
      cases active
  · by_cases hvw : v = w
    · subst hvw
      have hrest : ∀ u, u ≠ v → (s'.connection u).active = none := by
        intro u hu
        rw [hother u hu]
        exact hidle u hu
      rcases holds_step hinj hholds hok hs with ⟨hended, b, q, hb⟩ | ⟨o, rfl, hleft, hended⟩
      · rw [hended]
        refine ⟨⟨?_, .inr ⟨v, b, q, hrest, hb⟩⟩, by simp⟩
        intro u hu
        by_cases huv : u = v
        · subst huv
          rw [hb.active] at hu
          cases hu
        · rw [hother u huv]
          exact h.idle u (hidle u huv)
      · rw [hended]
        refine ⟨⟨?_, .inl ⟨?_, ?_⟩⟩, ?_⟩
        · intro u hu
          by_cases huv : u = v
          · subst huv
            rw [leave_outstanding]
            exact hleft.outstanding
          · rw [hother u huv]
            exact h.idle u (hidle u huv)
        · intro u
          by_cases huv : u = v
          · subst huv
            exact leave_active o
          · exact hrest u huv
        · intro key hkey
          rw [leave_records]
          exact hleft.records key hkey
        · intro w key len buf hmem
          rw [List.mem_singleton] at hmem
          simp only [Prod.mk.injEq] at hmem
          exact hleft.whole key len hmem.2.1.symm buf hmem.2.2.symm
    · cases step_cases hs with
      | call _ =>
        have := hok w
        rw [hholds.active] at this
        cases this
      | execute hexec =>
        obtain ⟨cmd, st, t, hcmd, -⟩ := execute_cases hexec
        simp [h.idle v (hidle v hvw)] at hcmd
      | enter active | submit active | settle active | poll active | deliver active | polled active | broken active
        | again active | expired active =>
        rw [hidle v hvw] at active
        cases active

theorem storedAfter_append (map : Bytes → Option Bytes) (as bs : List (Nat × Call × Outcome)) :
    storedAfter map (as ++ bs) = storedAfter (storedAfter map as) bs :=
  List.foldl_append

/-- The keys of the calls a run makes. -/
def calledKeys (run : List (Nat × Action)) : Set Bytes :=
  {key | ∃ w call, (w, .call call) ∈ run ∧ call.key = key}

/-- **What a get delivers**, in every run of calls of any number of workers, one at a time and with no wait given
up, whose keys have device keys of their own: the last value stored under its key, cut or filled up with zeros
to the length asked for. It is that value exactly when it has that length. -/
theorem whole_values {records : Bytes → Option Bytes} {run : List (Nat × Action)} {x : Nat × Action}
    {key buf : Bytes} {len : Nat} (hrun : runFrom (step m) (Sys.init records) run = some s)
    (hget : (w, .get key len, .filled buf) ∈ ended m s x)
    (hok : Guarded (step m) OneByOne (Sys.init records) (run ++ [x]))
    (hinj : Set.InjOn deriveKey (calledKeys (run ++ [x]))) :
    ∃ value, storedAfter (fun key => records (deriveKey key)) (observed (step m) (ended m) (Sys.init records) run) key =
        some value ∧
      buf = fit value len ∧ (buf = value ∧ buf.length = len ↔ value.length = len) := by
  have hkeys : Guarded (step m) (Among (calledKeys (run ++ [x]))) (Sys.init records) (run ++ [x]) := by
    refine guarded_always _ ?_
    rintro ⟨v, act⟩ hmem t
    cases act with
    | call call => exact ⟨v, call, hmem, rfl⟩
    | _ => trivial
  obtain ⟨hbefore, hlast⟩ := guarded_append (hok.and hkeys)
  obtain ⟨⟨hone, hamong⟩, -⟩ := hlast s hrun
  have hserial : Serial (calledKeys (run ++ [x]))
      (storedAfter (fun key => records (deriveKey key)) (observed (step m) (ended m) (Sys.init records) run)) s := by
    refine run_observed (I := fun es s => Serial (calledKeys (run ++ [x]))
      (storedAfter (fun key => records (deriveKey key)) es) s) (ended m) [] ?_ (serial_init records _) hbefore hrun
    rintro es t ⟨v, act⟩ t' ht hok hs
    rw [storedAfter_append]
    exact (serial_step hinj ht hok.1 hok.2 hs).1
  obtain ⟨s', hs'⟩ : ∃ s', step m s x = some s' := by
    cases h : step m s x with
    | none => simp [ended, h] at hget
    | some s' => exact ⟨s', rfl⟩
  obtain ⟨value, hvalue, rfl⟩ := (serial_step hinj hserial hone hamong hs').2 w key len buf hget
  refine ⟨value, hvalue, rfl, ?_⟩
  rw [fit_eq_iff, fit_length]
  exact and_iff_left rfl

/-- A call whose commands all succeed at once. -/
def promptly (w : Nat) (call : Call) : List (Nat × Action) :=
  [(w, .call call), (w, .enter 0 (some 0)), (w, .submit true), (w, .test), (w, .execute 0 false), (w, .deliver 0),
    (w, .processed true), (w, .clock false)]

/-- `OneByOne` for a worker that is the only one. -/
def Unhurried (s : Sys) : Nat × Action → Prop
  | (w, .call _) => (s.connection w).active = none
  | (_, .processed ok) => ok = true
  | (_, .clock expired) => expired = false
  | _ => True

instance (s : Sys) : ∀ x, Decidable (Unhurried s x)
  | (w, .call _) => inferInstanceAs (Decidable ((s.connection w).active = none))
  | (_, .processed ok) => inferInstanceAs (Decidable (ok = true))
  | (_, .clock expired) => inferInstanceAs (Decidable (expired = false))
  | (_, .enter _ _) | (_, .submit _) | (_, .test) | (_, .deliver _) | (_, .execute _ _) => isTrue trivial

theorem guarded_alone {run : List (Nat × Action)} (hidle : ∀ v, v ≠ w → (s.connection v).active = none)
    (hrun : ∀ x ∈ run, x.1 = w) (h : Guarded (step m) Unhurried s run) : Guarded (step m) OneByOne s run := by
  induction run generalizing s with
  | nil => trivial
  | cons x run ih =>
    obtain ⟨v, act⟩ := x
    obtain rfl : v = w := hrun (v, act) List.mem_cons_self
    obtain ⟨hok, hrest⟩ := h
    refine ⟨?_, fun s' hs => ih ?_ (fun x hx => hrun x (List.mem_cons_of_mem _ hx)) (hrest s' hs)⟩
    · cases act with
      | call call =>
        intro u
        by_cases hu : u = v
        · subst hu
          exact hok
        · exact hidle u hu
      | processed ok =>
        obtain rfl : ok = true := hok
        trivial
      | clock expired =>
        obtain rfl : expired = false := hok
        trivial
      | _ => trivial
    · intro u hu
      rw [step_ne hu hs]
      exact hidle u hu

/-- Three bytes are stored and as many are asked for. -/
theorem whole_values_read : ∃ s, runFrom (step 8) (Sys.init fun _ => none)
      (promptly 0 (.set [7] [1, 2, 3]) ++ [(0, .test)] ++ promptly 0 (.get [7] 3)) = some s ∧
    ∃ value, storedAfter (fun _ => none) (observed (step 8) (ended 8) (Sys.init fun _ => none)
      (promptly 0 (.set [7] [1, 2, 3]) ++ [(0, .test)] ++ promptly 0 (.get [7] 3))) [7] = some value ∧
      [1, 2, 3] = fit value 3 ∧ ([1, 2, 3] = value ∧ [1, 2, 3].length = 3 ↔ value.length = 3) := by
  have hget : (runFrom (step 8) (Sys.init fun _ => none)
      (promptly 0 (.set [7] [1, 2, 3]) ++ [(0, .test)] ++ promptly 0 (.get [7] 3))).any
        (fun s => decide ((0, .get [7] 3, .filled [1, 2, 3]) ∈ ended 8 s (0, .test))) = true := by
    decide +kernel
  obtain ⟨s, hs, hended⟩ := (Option.any_eq_true _ _).1 hget
  refine ⟨s, hs, whole_values hs (of_decide_eq_true hended) (guarded_alone (w := 0) ?_ ?_ ?_) ?_⟩
  · exact fun _ _ => rfl
  · decide
  · decide +kernel
  · rintro _ ⟨w, c, hc, rfl⟩ _ ⟨w', c', hc', rfl⟩ _
    simp [promptly] at hc hc'
    rcases hc with ⟨-, rfl⟩ | ⟨-, rfl⟩ <;> rcases hc' with ⟨-, rfl⟩ | ⟨-, rfl⟩ <;> rfl

/-- Three bytes are stored and `len` are read: the call returns normally, with other bytes. -/
def Misread (len : Nat) : Prop := ∃ s, runFrom (step 8) (Sys.init fun _ => none)
    (promptly 0 (.set [7] [1, 2, 3]) ++ [(0, .test)] ++ promptly 0 (.get [7] len)) = some s ∧
  storedAfter (fun _ => none) (observed (step 8) (ended 8) (Sys.init fun _ => none)
    (promptly 0 (.set [7] [1, 2, 3]) ++ [(0, .test)] ++ promptly 0 (.get [7] len))) [7] = some [1, 2, 3] ∧
  ∃ buf, (0, .get [7] len, .filled buf) ∈ ended 8 s (0, .test) ∧ buf ≠ [1, 2, 3]

/-- Five bytes are asked for and come filled up with zeros, two are asked for and come cut. -/
theorem partial_values : Misread 5 ∧ Misread 2 := by
  have hmisread : ∀ len, len ≠ 3 → (runFrom (step 8) (Sys.init fun _ => none)
      (promptly 0 (.set [7] [1, 2, 3]) ++ [(0, .test)] ++ promptly 0 (.get [7] len))).any
        (fun s => decide ((0, .get [7] len, .filled (fit [1, 2, 3] len)) ∈ ended 8 s (0, .test)) &&
          decide (storedAfter (fun _ => none) (observed (step 8) (ended 8) (Sys.init fun _ => none)
            (promptly 0 (.set [7] [1, 2, 3]) ++ [(0, .test)] ++ promptly 0 (.get [7] len))) [7] = some [1, 2, 3])) =
      true → Misread len := by
    intro len hlen hget
    obtain ⟨s, hs, hrest⟩ := (Option.any_eq_true _ _).1 hget
    obtain ⟨hended, hstored⟩ := (Bool.and_eq_true _ _).mp hrest
    refine ⟨s, hs, of_decide_eq_true hstored, fit [1, 2, 3] len, of_decide_eq_true hended, ?_⟩
    rw [ne_eq, fit_eq_iff]
    exact fun h => hlen h.symm
  exact ⟨hmisread 5 (by decide) (by decide +kernel), hmisread 2 (by decide) (by decide +kernel)⟩

end SpdkNvmeKvConnector
end SpdkConnector
