import SpdkConnector.Connector.BatchSet
import SpdkConnector.Interleaving.Trace

/-!
# What a call's log says about entries and pages

The log of a call lists the commands it performed. `looked`, `bindings`, `granted`, `returned`, `refused`
and `transfers` read off it what happened to entries, pages and segments. The lemmas here say what they
are for each program `do_batch_set` is made of, answered in whatever way.
-/

namespace SpdkConnector

open Interleaving

/-- A log of connector commands. -/
abbrev Log := List (Event Cmd Answer)

/-- The entries the call looked at. -/
def looked (ℓ : Log) : List (Nat × Option Entry) :=
  ℓ.filterMap fun
    | ⟨.getEntry q, e⟩ => some (q, e)
    | _ => none

/-- The entries it changed, and what to. -/
def bindings (ℓ : Log) : List (Nat × Option Entry) :=
  ℓ.filterMap fun
    | ⟨.setEntry q e, _⟩ => some (q, e)
    | _ => none

def grantOf (r : Except Exn (List PageExtent)) : List PageExtent := r.toOption.getD []

/-- The extents the allocator handed to it. -/
def granted (ℓ : Log) : List PageExtent :=
  ℓ.flatMap fun
    | ⟨.allocate _, r⟩ => grantOf r
    | _ => []

def accepted (r : Except Exn Unit) : Bool := r.toOption.isSome

/-- The extents it gave back. -/
def returned (ℓ : Log) : List PageExtent :=
  ℓ.flatMap fun
    | ⟨.release es, r⟩ => if accepted r then es else []
    | _ => []

/-- The releases the allocator refused. -/
def refused (ℓ : Log) : List (List PageExtent) :=
  ℓ.filterMap fun
    | ⟨.release es, r⟩ => if accepted r then none else some es
    | _ => none

/-- The segments it wrote. -/
def transfers (ℓ : Log) : List IoBatchItem :=
  ℓ.filterMap fun
    | ⟨.writeSegment it _, _⟩ => some it
    | _ => none

section
variable (ℓ ℓ' : Log)
@[simp] theorem looked_append : looked (ℓ ++ ℓ') = looked ℓ ++ looked ℓ' := List.filterMap_append
@[simp] theorem bindings_append : bindings (ℓ ++ ℓ') = bindings ℓ ++ bindings ℓ' := List.filterMap_append
@[simp] theorem granted_append : granted (ℓ ++ ℓ') = granted ℓ ++ granted ℓ' := List.flatMap_append
@[simp] theorem returned_append : returned (ℓ ++ ℓ') = returned ℓ ++ returned ℓ' := List.flatMap_append
@[simp] theorem refused_append : refused (ℓ ++ ℓ') = refused ℓ ++ refused ℓ' := List.filterMap_append
@[simp] theorem transfers_append : transfers (ℓ ++ ℓ') = transfers ℓ ++ transfers ℓ' := List.filterMap_append
end

/-- What a log did to entries and pages. -/
structure Books (ℓ : Log) (look bind : List (Nat × Option Entry)) (grant give : List PageExtent)
    (refuse : List (List PageExtent)) : Prop where
  looked : looked ℓ = look
  bindings : bindings ℓ = bind
  granted : granted ℓ = grant
  returned : returned ℓ = give
  refused : refused ℓ = refuse

theorem Books.append {ℓ ℓ' : Log} {a a' b b' : List (Nat × Option Entry)} {c c' d d' : List PageExtent}
    {e e' : List (List PageExtent)} (h : Books ℓ a b c d e) (h' : Books ℓ' a' b' c' d' e') :
    Books (ℓ ++ ℓ') (a ++ a') (b ++ b') (c ++ c') (d ++ d') (e ++ e') := by
  constructor
  · rw [looked_append, h.looked, h'.looked]
  · rw [bindings_append, h.bindings, h'.bindings]
  · rw [granted_append, h.granted, h'.granted]
  · rw [returned_append, h.returned, h'.returned]
  · rw [refused_append, h.refused, h'.refused]

/-- A log that touches neither entries nor pages. -/
abbrev Idle (ℓ : Log) : Prop := Books ℓ [] [] [] [] []

/-- Commands that touch neither entries nor pages. -/
def Cmd.Silent : Cmd → Prop
  | .getEntry _ | .setEntry _ _ | .allocate _ | .release _ => False
  | _ => True

/-- Nor the device. -/
def Cmd.Still : Cmd → Prop
  | .writeSegment _ _ => False
  | c => c.Silent

theorem Cmd.Still.silent {c : Cmd} (h : c.Still) : c.Silent := by
  cases c <;> first | exact h | exact h.elim

theorem idle_of_silent {ℓ : Log} (h : ∀ ev ∈ ℓ, ev.1.Silent) : Idle ℓ := by
  induction ℓ with
  | nil => exact ⟨rfl, rfl, rfl, rfl, rfl⟩
  | cons ev ℓ ih =>
    obtain ⟨c, r⟩ := ev
    have hc : c.Silent := h _ List.mem_cons_self
    have ih' := ih fun ev hev => h ev (List.mem_cons_of_mem _ hev)
    have hone : Idle [⟨c, r⟩] := by
      cases c <;> first | exact hc.elim | exact ⟨rfl, rfl, rfl, rfl, rfl⟩
    exact hone.append ih'

theorem transfers_of_still {ℓ : Log} (h : ∀ ev ∈ ℓ, ev.1.Still) : transfers ℓ = [] := by
  rw [transfers, List.filterMap_eq_nil_iff]
  rintro ⟨c, r⟩ hev
  have hc : c.Still := h _ hev
  cases c <;> first | rfl | exact hc.elim

/-! ## Locks and lookups -/

theorem only_stateFor (key : Key) : Only Cmd.Still (stateFor key) :=
  ⟨trivial, fun _ => Only.finally (p := perform (.stateFor key)) ⟨trivial, fun _ => trivial⟩
    ⟨trivial, fun _ => trivial⟩⟩

theorem only_statesFor (keys : List Key) : Only Cmd.Still (statesFor keys) := by
  induction keys with
  | nil => trivial
  | cons key keys ih => exact (only_stateFor key).bind fun _ => ih.bind fun _ => trivial

theorem only_lockStates (ps : List Nat) : Only Cmd.Still (lockStates ps) := by
  induction ps with
  | nil => trivial
  | cons p ps ih => exact ⟨trivial, fun _ => ih⟩

theorem only_unlockStates (ps : List Nat) : Only Cmd.Still (unlockStates ps) := by
  induction ps with
  | nil => trivial
  | cons p ps ih => exact ⟨trivial, fun _ => ih⟩

/-- What a log of commands that touch nothing adds. -/
theorem still_books {α : Type} {p : P α} {ℓ : Log} {o : Except Exn α} (hp : Only Cmd.Still p)
    (h : Yields p ℓ o) : Idle ℓ ∧ transfers ℓ = [] :=
  ⟨idle_of_silent fun ev hev => (hp.yields h ev hev).silent, transfers_of_still (hp.yields h)⟩

/-- A block under a mutex: its own log between the two commands of the mutex. -/
theorem withLock_yields {α : Type} {m : Mutex} {p : P α} {ℓ : Log} {o : Except Exn α}
    (h : Yields (withLock m p) ℓ o) : ∃ ℓ1, Yields p ℓ1 o ∧ ℓ = ⟨.lock m, ()⟩ :: (ℓ1 ++ [⟨.unlock m, ()⟩]) := by
  obtain ⟨_, ℓ1, rfl, h1⟩ := Yields.of_perform h
  obtain ⟨o', ℓ2, ℓ3, u, rfl, h2, h3, ho⟩ := Yields.of_finally h1
  obtain ⟨_, ℓ5, rfl, h4⟩ := Yields.of_call h3
  obtain ⟨rfl, rfl⟩ := Yields.of_pure h4
  rcases ho with ⟨_, -, rfl⟩ | ⟨_, hbad, -⟩
  · exact ⟨ℓ2, h2, rfl⟩
  · cases hbad

/-- The states of the keys: each was looked up, and none can fail. -/
theorem statesFor_yields {keys : List Key} {ℓ : Log} {o : Except Exn (List Nat)}
    (h : Yields (statesFor keys) ℓ o) : ∃ states, o = .ok states ∧ states.length = keys.length ∧
      ∀ x ∈ keys.zip states, (⟨.stateFor x.1, x.2⟩ : Event Cmd Answer) ∈ ℓ := by
  induction keys generalizing ℓ o with
  | nil =>
    obtain ⟨rfl, rfl⟩ := Yields.of_pure h
    exact ⟨[], rfl, rfl, nofun⟩
  | cons key keys ih =>
    have hone : ∀ {ℓ : Log} {o : Except Exn Nat}, Yields (stateFor key) ℓ o →
        ∃ q, o = .ok q ∧ (⟨.stateFor key, q⟩ : Event Cmd Answer) ∈ ℓ := by
      intro ℓ o h
      obtain ⟨ℓ1, h1, rfl⟩ := withLock_yields h
      obtain ⟨q, ℓ2, rfl, h2⟩ := Yields.of_call h1
      obtain ⟨rfl, rfl⟩ := Yields.of_pure h2
      exact ⟨q, rfl, by simp⟩
    rcases Yields.of_bind h with ⟨x, -, h1⟩ | ⟨q, ℓ1, ℓ2, rfl, h1, h2⟩
    · obtain ⟨q, hbad, -⟩ := hone h1
      cases hbad
    obtain ⟨q', hq, hmem⟩ := hone h1
    obtain rfl := Except.ok.inj hq
    rcases Yields.of_bind h2 with ⟨x, -, h3⟩ | ⟨states, ℓ3, ℓ4, rfl, h3, h4⟩
    · obtain ⟨states, hbad, -⟩ := ih h3
      cases hbad
    obtain ⟨states', hs, hlen, hall⟩ := ih h3
    obtain rfl := Except.ok.inj hs
    obtain ⟨rfl, rfl⟩ := Yields.of_pure h4
    refine ⟨q :: states, rfl, by simp [hlen], fun x hx => ?_⟩
    rw [List.zip_cons_cons] at hx
    rcases List.mem_cons.1 hx with rfl | hx
    · exact List.mem_append_left _ hmem
    · exact List.mem_append_right _ (List.mem_append_left _ (hall x hx))

theorem lockStates_yields {ps : List Nat} {ℓ : Log} {o : Except Exn Unit} (h : Yields (lockStates ps) ℓ o) :
    o = .ok () ∧ ∀ p ∈ ps, (⟨.lock (.key p), ()⟩ : Event Cmd Answer) ∈ ℓ := by
  induction ps generalizing ℓ with
  | nil =>
    obtain ⟨rfl, rfl⟩ := Yields.of_pure h
    exact ⟨rfl, nofun⟩
  | cons p ps ih =>
    obtain ⟨u, ℓ1, rfl, h1⟩ := Yields.of_perform h
    obtain ⟨ho, hall⟩ := ih h1
    refine ⟨ho, fun x hx => ?_⟩
    rcases List.mem_cons.1 hx with rfl | hx
    · exact List.mem_cons_self
    · exact List.mem_cons_of_mem _ (hall x hx)

theorem unlockStates_yields {ps : List Nat} {ℓ : Log} {o : Except Exn Unit} (h : Yields (unlockStates ps) ℓ o) :
    o = .ok () := by
  induction ps generalizing ℓ with
  | nil => exact (Yields.of_pure h).2
  | cons p ps ih =>
    obtain ⟨u, ℓ1, rfl, h1⟩ := Yields.of_perform h
    exact ih h1

/-- The states of the keys were looked up and locked, and nothing else. -/
structure Acquires (keys : List Key) (states : List Nat) (ℓ : Log) : Prop where
  length : states.length = keys.length
  found : ∀ x ∈ keys.zip states, (⟨.stateFor x.1, x.2⟩ : Event Cmd Answer) ∈ ℓ
  locked : ∀ q ∈ states, (⟨.lock (.key q), ()⟩ : Event Cmd Answer) ∈ ℓ
  idle : Idle ℓ
  still : transfers ℓ = []

/-- The log of a batch operation: taking the locks, the block under them, and leaving them. -/
theorem onStates_yields {α : Type} {keys : List Key} {p : List Nat → P α} {ℓ : Log} {o : Except Exn α}
    (h : Yields (statesFor keys >>= fun states => withStates states (p states)) ℓ o) :
    ∃ states ℓ1 ℓ2 ℓ3, ℓ = ℓ1 ++ (ℓ2 ++ ℓ3) ∧ Acquires keys states ℓ1 ∧ Yields (p states) ℓ2 o ∧
      Idle ℓ3 ∧ transfers ℓ3 = [] := by
  rcases Yields.of_bind h with ⟨x, -, h1⟩ | ⟨states, ℓ1, ℓ2, rfl, h1, h2⟩
  · obtain ⟨states, hbad, -⟩ := statesFor_yields h1
    cases hbad
  obtain ⟨states', hs, hlen, hall⟩ := statesFor_yields h1
  obtain rfl := Except.ok.inj hs
  rcases Yields.of_bind h2 with ⟨x, -, h3⟩ | ⟨u, ℓ3, ℓ4, rfl, h3, h4⟩
  · cases (lockStates_yields h3).1
  obtain ⟨o', ℓ5, ℓ6, u', rfl, h5, h6, ho⟩ := Yields.of_finally h4
  obtain rfl : o = o' := by
    rcases ho with ⟨_, -, rfl⟩ | ⟨_, rfl, -⟩
    · rfl
    · cases unlockStates_yields h6
  obtain ⟨hi1, ht1⟩ := still_books (only_statesFor keys) h1
  obtain ⟨hi3, ht3⟩ := still_books (only_lockStates _) h3
  obtain ⟨hi6, ht6⟩ := still_books (only_unlockStates _) h6
  refine ⟨states, ℓ1 ++ ℓ3, ℓ5, ℓ6, by simp, ⟨hlen, fun x hx => ?_, fun q hq => ?_, hi1.append hi3, ?_⟩, h5, hi6, ht6⟩
  · exact List.mem_append_left _ (hall x hx)
  · exact List.mem_append_right _ ((lockStates_yields h3).2 q (mem_lockOrder.2 hq))
  · rw [transfers_append, ht1, ht3, List.append_nil]

/-! ## The allocator -/

theorem ofExcept_yields {α : Type} {r o : Except Exn α} {ℓ : Log} (h : Yields (Prog.ofExcept r : P α) ℓ o) :
    ℓ = [] ∧ o = r := by
  cases r with
  | ok a => exact Yields.of_pure h
  | error x => exact Yields.of_throw h

theorem allocatorAllocate_books {n : Nat} {ℓ : Log} {o : Except Exn (List PageExtent)}
    (h : Yields (allocatorAllocate n) ℓ o) : Books ℓ [] [] (grantOf o) [] [] ∧ transfers ℓ = [] := by
  obtain ⟨ℓ1, h1, rfl⟩ := withLock_yields h
  obtain ⟨r, ℓ2, rfl, h2⟩ := Yields.of_perform h1
  obtain ⟨rfl, rfl⟩ := ofExcept_yields h2
  exact ⟨⟨rfl, rfl, List.append_nil _, rfl, rfl⟩, rfl⟩

theorem allocatorRelease_books {es : List PageExtent} {ℓ : Log} {o : Except Exn Unit}
    (h : Yields (allocatorRelease es) ℓ o) :
    (o = .ok () ∧ Books ℓ [] [] [] es [] ∨ (∃ x, o = .error x) ∧ refused ℓ ≠ []) ∧ transfers ℓ = [] := by
  obtain ⟨ℓ1, h1, rfl⟩ := withLock_yields h
  obtain ⟨r, ℓ2, rfl, h2⟩ := Yields.of_perform h1
  obtain ⟨rfl, rfl⟩ := ofExcept_yields h2
  refine ⟨?_, rfl⟩
  cases o with
  | ok u => exact .inl ⟨rfl, rfl, rfl, rfl, List.append_nil es, rfl⟩
  | error x => exact .inr ⟨⟨x, rfl⟩, List.cons_ne_nil _ _⟩

theorem allocateEntry_books {g : StorageGeometry} {n : Nat} {ℓ : Log} {o : Except Exn Entry}
    (h : Yields (allocateEntry g n) ℓ o) :
    Books ℓ [] [] (o.toOption.elim [] Entry.extents) [] [] ∧ transfers ℓ = [] ∧
    ∀ e, o = .ok e → e.logicalSize = n := by
  rcases Yields.of_bind h with ⟨x, rfl, h1⟩ | ⟨m, ℓ1, ℓ2, rfl, h1, h2⟩
  · obtain ⟨rfl, -⟩ := ofExcept_yields h1
    exact ⟨⟨rfl, rfl, rfl, rfl, rfl⟩, rfl, nofun⟩
  · obtain ⟨rfl, -⟩ := ofExcept_yields h1
    rw [List.nil_append]
    rcases Yields.of_bind h2 with ⟨x, rfl, h3⟩ | ⟨es, ℓ3, ℓ4, rfl, h3, h4⟩
    · exact ⟨(allocatorAllocate_books h3).1, (allocatorAllocate_books h3).2, nofun⟩
    · obtain ⟨rfl, rfl⟩ := Yields.of_pure h4
      rw [List.append_nil]
      obtain ⟨hb, ht⟩ := allocatorAllocate_books h3
      refine ⟨hb, ht, fun e he => ?_⟩
      cases he
      rfl

/-! ## The parts of `do_batch_set` -/

/-- Only the segment writes touch the device. -/
theorem only_runSegments (op : Operation) : ∀ (n : Nat) (pending : List (IoBatchItem × Nat))
    (results : List IoResult) (bufs : List Bytes), Only Cmd.Silent (runSegments op n pending results bufs)
  | 0, _, _, _ => trivial
  | n + 1, pending, results, bufs => by
    unfold runSegments
    refine ⟨trivial, fun (i : Nat) => ?_⟩
    simp only [Prog.bind]
    split
    · trivial
    · cases op with
      | read => exact ⟨trivial, fun _ => only_runSegments .read n _ _ _⟩
      | write => exact ⟨trivial, fun _ => only_runSegments .write n _ _ _⟩

theorem only_submitBatchAndWait (g : StorageGeometry) (op : Operation) (items : List IoBatchItem)
    (bufs : List Bytes) : Only Cmd.Silent (submitBatchAndWait g op items bufs) := by
  unfold submitBatchAndWait
  split
  · trivial
  · refine Only.bind ⟨trivial, fun _ => trivial⟩ fun _ => ?_
    exact (Only.ofExcept _).bind fun _ => (Only.ofExcept _).bind fun _ => only_runSegments op _ _ _ _

theorem only_writeAll (g : StorageGeometry) (items : List IoBatchItem) (buffers : List Bytes) :
    Only Cmd.Silent (writeAll g items buffers) := by
  unfold writeAll
  split
  · trivial
  · refine (only_submitBatchAndWait g .write items buffers).bind fun _ => ?_
    split
    · trivial
    · exact Only.ofExcept _

theorem releaseAll_books {ess : List (List PageExtent)} {ℓ : Log} {o : Except Exn Unit}
    (h : Yields (releaseAll ess) ℓ o) :
    (o = .ok () ∧ Books ℓ [] [] [] ess.flatten [] ∨ (∃ x, o = .error x) ∧ refused ℓ ≠ []) ∧
      transfers ℓ = [] := by
  induction ess generalizing ℓ with
  | nil =>
    obtain ⟨rfl, rfl⟩ := Yields.of_pure h
    exact ⟨.inl ⟨rfl, rfl, rfl, rfl, rfl, rfl⟩, rfl⟩
  | cons es ess ih =>
    rcases Yields.of_bind h with ⟨x, rfl, h1⟩ | ⟨_, ℓ1, ℓ2, rfl, h1, h2⟩
    · obtain ⟨⟨hbad, -⟩ | hr, ht⟩ := allocatorRelease_books h1
      · cases hbad
      · exact ⟨.inr hr, ht⟩
    · obtain ⟨⟨-, hb⟩ | ⟨⟨x, hbad⟩, -⟩, ht⟩ := allocatorRelease_books h1
      · obtain ⟨h3, ht'⟩ := ih h2
        refine ⟨?_, by rw [transfers_append, ht, ht', List.append_nil]⟩
        rcases h3 with ⟨rfl, hb'⟩ | ⟨hx, hr⟩
        · exact .inl ⟨rfl, hb.append hb'⟩
        · refine .inr ⟨hx, ?_⟩
          rw [refused_append, hb.refused]
          exact hr
      · cases hbad

theorem publishAll_books {rs : List Reservation} {ℓ : Log} {o : Except Exn Unit}
    (h : Yields (publishAll rs) ℓ o) :
    o = .ok () ∧ Books ℓ [] (rs.map fun r => (r.state, some r.entry)) [] [] [] ∧ transfers ℓ = [] := by
  induction rs generalizing ℓ with
  | nil =>
    obtain ⟨rfl, rfl⟩ := Yields.of_pure h
    exact ⟨rfl, ⟨rfl, rfl, rfl, rfl, rfl⟩, rfl⟩
  | cons r rs ih =>
    obtain ⟨_, ℓ1, rfl, h1⟩ := Yields.of_perform h
    obtain ⟨rfl, hb, ht⟩ := ih h1
    have hone : Books [⟨.setEntry r.state (some r.entry), ()⟩] [] [(r.state, some r.entry)] [] [] [] :=
      ⟨rfl, rfl, rfl, rfl, rfl⟩
    exact ⟨rfl, hone.append hb, ht⟩

/-- The reservations made for the keys `ls`, given what the call saw of their entries: one for every key
that is unbound or bound to as many bytes. -/
inductive Reserves : List Located → List (Nat × Option Entry) → List Reservation → Prop
  | nil : Reserves [] [] []
  | skip {l ls cur qs rs} (hs : sizeDiffers cur l.slot.buffer.length = true) (h : Reserves ls qs rs) :
      Reserves (l :: ls) ((l.state, cur) :: qs) rs
  | take {l ls cur e qs rs} (hs : sizeDiffers cur l.slot.buffer.length = false)
      (he : e.logicalSize = l.slot.buffer.length) (h : Reserves ls qs rs) :
      Reserves (l :: ls) ((l.state, cur) :: qs) (⟨l.index, l.state, e, cur⟩ :: rs)

/-- The `try` around one allocation. -/
theorem tryAllocate_books {g : StorageGeometry} {n : Nat} {ℓ : Log} {o : Except Exn (Except Exn Entry)}
    (h : Yields ((allocateEntry g n |>.bind fun e => pure (Except.ok e)).tryCatch
      fun x => pure (Except.error x)) ℓ o) :
    ∃ a, o = .ok a ∧ Books ℓ [] [] (a.toOption.elim [] Entry.extents) [] [] ∧ transfers ℓ = [] ∧
      ∀ e, a = .ok e → e.logicalSize = n := by
  rcases Yields.of_tryCatch h with ⟨a, rfl, h1⟩ | ⟨x, ℓ1, ℓ2, rfl, h1, h2⟩
  · rcases Yields.of_bind h1 with ⟨x, hbad, -⟩ | ⟨e, ℓ1, ℓ2, rfl, h3, h2⟩
    · cases hbad
    · obtain ⟨rfl, hok⟩ := Yields.of_pure h2
      obtain rfl := Except.ok.inj hok
      obtain ⟨hb, ht, hlen⟩ := allocateEntry_books h3
      rw [List.append_nil]
      exact ⟨_, rfl, hb, ht, fun e' he' => hlen e' (congrArg Except.ok (Except.ok.inj he'))⟩
  · obtain ⟨rfl, rfl⟩ := Yields.of_pure h2
    rw [List.append_nil]
    rcases Yields.of_bind h1 with ⟨y, -, h3⟩ | ⟨e, ℓ3, ℓ4, rfl, -, h4⟩
    · obtain ⟨hb, ht, -⟩ := allocateEntry_books h3
      exact ⟨_, rfl, hb, ht, nofun⟩
    · cases (Yields.of_pure h4).2

/-- The reservation loop never throws itself. Its grants are the extents of its reservations, and when it
ends without an exception, every key has been looked at once and has passed the checks. -/
theorem reserveAll_books {g : StorageGeometry} {ls : List Located} :
    ∀ {keys : List Key} {acc : List Reservation} {items : List IoBatchItem} {ℓ : Log}
      {o : Except Exn (Option Exn × List Reservation × List IoBatchItem)},
      Yields (reserveAll g ls keys acc items) ℓ o → ∃ failed new items' qs, o = .ok (failed, acc ++ new, items') ∧
        Books ℓ qs [] (new.flatMap fun r => r.entry.extents) [] [] ∧ transfers ℓ = [] ∧
        (failed = none → Reserves ls qs new ∧
          (ls.map fun l => l.slot.key).Nodup ∧ ∀ l ∈ ls, l.slot.key ∉ keys) := by
  induction ls with
  | nil =>
    intro keys acc items ℓ o h
    obtain ⟨rfl, rfl⟩ := Yields.of_pure h
    exact ⟨none, [], items, [], by rw [List.append_nil], ⟨rfl, rfl, rfl, rfl, rfl⟩, rfl, fun _ => ⟨.nil, .nil, by simp⟩⟩
  | cons l ls ih =>
    intro keys acc items ℓ o h
    unfold reserveAll at h
    split at h
    · obtain ⟨rfl, rfl⟩ := Yields.of_pure h
      exact ⟨some duplicateKey, [], items, [], by rw [List.append_nil], ⟨rfl, rfl, rfl, rfl, rfl⟩, rfl, by simp⟩
    rename_i hkey
    split at h
    · obtain ⟨rfl, rfl⟩ := Yields.of_pure h
      exact ⟨some emptyValue, [], items, [], by rw [List.append_nil], ⟨rfl, rfl, rfl, rfl, rfl⟩, rfl, by simp⟩
    obtain ⟨cur, ℓ1, rfl, h1⟩ := Yields.of_perform h
    have hlook : Books [⟨.getEntry l.state, cur⟩] [(l.state, cur)] [] [] [] [] := ⟨rfl, rfl, rfl, rfl, rfl⟩
    -- what the later keys passed, this one and they pass together
    have hkeys : (ls.map fun l => l.slot.key).Nodup → (∀ l' ∈ ls, l'.slot.key ∉ l.slot.key :: keys) →
        ((l :: ls).map fun l => l.slot.key).Nodup ∧ ∀ l' ∈ l :: ls, l'.slot.key ∉ keys := by
      intro hn hall
      refine ⟨List.nodup_cons.2 ⟨fun hm => ?_, hn⟩, fun l' hl' => ?_⟩
      · obtain ⟨l', hl', he⟩ := List.mem_map.1 hm
        exact hall l' hl' (he ▸ List.mem_cons_self)
      · rcases List.mem_cons.1 hl' with rfl | hl'
        · exact hkey
        · exact fun hm => hall l' hl' (List.mem_cons_of_mem _ hm)
    split at h1
    · rename_i hs
      obtain ⟨failed, new, items', qs, rfl, hb, ht, hr⟩ := ih h1
      refine ⟨failed, new, items', _, rfl, hlook.append hb, ht, fun hf => ?_⟩
      obtain ⟨hr, hn, hall⟩ := hr hf
      exact ⟨.skip hs hr, hkeys hn hall⟩
    rename_i hs
    have hs : sizeDiffers cur l.slot.buffer.length = false := by simpa using hs
    rcases Yields.of_bind h1 with ⟨x, -, h2⟩ | ⟨a, ℓ2, ℓ3, rfl, h2, h3⟩
    · obtain ⟨a, hbad, -⟩ := tryAllocate_books h2
      cases hbad
    obtain ⟨a', ha, hb, ht, hlen⟩ := tryAllocate_books h2
    obtain rfl := Except.ok.inj ha
    cases a with
    | error x =>
      obtain ⟨rfl, rfl⟩ := Yields.of_pure h3
      refine ⟨some x, [], items, _, by rw [List.append_nil], hlook.append (hb.append (idle_of_silent (by simp))), ?_, by simp⟩
      rw [List.append_nil]
      exact ht
    | ok e =>
      simp only at h3
      split at h3
      · rename_i x _
        obtain ⟨rfl, rfl⟩ := Yields.of_pure h3
        refine ⟨some x, [⟨l.index, l.state, e, cur⟩], items, _, rfl, hlook.append (hb.append (idle_of_silent (by simp))), ?_,
          by simp⟩
        rw [List.append_nil]
        exact ht
      · obtain ⟨failed, new, items', qs, rfl, hb', ht', hr⟩ := ih h3
        refine ⟨failed, ⟨l.index, l.state, e, cur⟩ :: new, items', _, by simp,
          hlook.append (hb.append hb'), ?_, fun hf => ?_⟩
        · rw [show transfers (⟨.getEntry l.state, cur⟩ :: (ℓ2 ++ ℓ3)) = transfers (ℓ2 ++ ℓ3) from rfl,
            transfers_append, ht, ht', List.append_nil]
        · obtain ⟨hr, hn, hall⟩ := hr hf
          exact ⟨.take hs (hlen e rfl) hr, hkeys hn hall⟩

/-! ## `do_batch_set` -/

/-- A call that gave back exactly what it took and changed no entry. -/
structure RolledBack (ℓ : Log) : Prop where
  bindings : bindings ℓ = []
  returned : returned ℓ = granted ℓ

/-- A call that published its reservations: the extents it took are those of the new entries, and it gave
back those of the entries it replaced. -/
structure Published (slots : List Slot) (states : List Nat) (rs : List Reservation) (ℓ : Log) : Prop where
  keys : (slots.map Slot.key).Nodup
  length : states.length = slots.length
  reserves : Reserves (locate slots states) (looked ℓ) rs
  bindings : bindings ℓ = rs.map fun r => (r.state, some r.entry)
  granted : granted ℓ = rs.flatMap fun r => r.entry.extents
  returned : returned ℓ = (rs.filterMap fun r => r.previous.map Entry.extents).flatten
  looks_first : ∃ pre post, ℓ = pre ++ post ∧ SpdkConnector.bindings pre = [] ∧ looked post = []

/-- No segment is written once pages are given back. -/
def WritesFirst (ℓ : Log) : Prop := ∃ ℓ1 ℓ2, ℓ = ℓ1 ++ ℓ2 ∧ returned ℓ1 = [] ∧ transfers ℓ2 = []

theorem locate_keys {slots : List Slot} {states : List Nat} (h : states.length = slots.length) :
    (locate slots states).map (fun l => l.slot.key) = slots.map Slot.key := by
  have hzip : (slots.zip states).map Prod.fst = slots := List.map_fst_zip (by omega)
  rw [locate, List.map_map]
  calc (slots.zip states).zipIdx.map _ = (((slots.zip states).zipIdx.map Prod.fst).map Prod.fst).map Slot.key := by
        rw [List.map_map, List.map_map]
        rfl
    _ = slots.map Slot.key := by rw [List.zipIdx_map_fst, hzip]

/-- Rolling back throws, and gives back every reserved extent unless a release is refused. -/
theorem unreserve_books {β : Type} {rs : List Reservation} {x : Exn} {ℓ : Log} {o : Except Exn β}
    (h : Yields (releaseAll (rs.map fun r => r.entry.extents) >>= fun _ => .throw x) ℓ o) :
    (refused ℓ ≠ [] ∨ Books ℓ [] [] [] (rs.flatMap fun r => r.entry.extents) []) ∧ transfers ℓ = [] ∧
      ∃ y, o = .error y := by
  obtain ⟨y, rfl, h1⟩ | ⟨u, ℓ1, ℓ2, rfl, h1, h2⟩ := Yields.of_bind h
  · obtain ⟨⟨hbad, -⟩ | ⟨-, hr⟩, ht⟩ := releaseAll_books h1
    · cases hbad
    · exact ⟨.inl hr, ht, y, rfl⟩
  · obtain ⟨rfl, rfl⟩ := Yields.of_throw h2
    obtain ⟨⟨-, hb⟩ | ⟨⟨y, hbad⟩, -⟩, ht⟩ := releaseAll_books h1
    · rw [List.append_nil]
      exact ⟨.inr hb, ht, x, rfl⟩
    · cases hbad

/-- Publishing and giving the replaced extents back. -/
theorem publish_books {rs : List Reservation} {ℓ : Log} {o : Except Exn Ret}
    (h : Yields (do
      publishAll rs
      releaseAll (rs.filterMap fun r => r.previous.map Entry.extents)
      pure Ret.unit) ℓ o) :
    (refused ℓ ≠ [] ∨ o = .ok .unit ∧ Books ℓ [] (rs.map fun r => (r.state, some r.entry)) []
      (rs.filterMap fun r => r.previous.map Entry.extents).flatten []) ∧ transfers ℓ = [] := by
  obtain ⟨y, rfl, h1⟩ | ⟨u, ℓ1, ℓ2, rfl, h1, h2⟩ := Yields.of_bind h
  · cases (publishAll_books h1).1
  obtain ⟨-, hb1, ht1⟩ := publishAll_books h1
  obtain ⟨y, rfl, h3⟩ | ⟨u, ℓ3, ℓ4, rfl, h3, h4⟩ := Yields.of_bind h2
  · obtain ⟨⟨hbad, -⟩ | ⟨-, hr⟩, ht⟩ := releaseAll_books h3
    · cases hbad
    · refine ⟨.inl ?_, by rw [transfers_append, ht1, ht, List.append_nil]⟩
      rw [refused_append, hb1.refused]
      exact hr
  · obtain ⟨rfl, rfl⟩ := Yields.of_pure h4
    rw [List.append_nil]
    obtain ⟨⟨-, hb⟩ | ⟨⟨y, hbad⟩, -⟩, ht⟩ := releaseAll_books h3
    · refine ⟨.inr ⟨rfl, ?_⟩, by rw [transfers_append, ht1, ht, List.append_nil]⟩
      simpa using hb1.append hb
    · cases hbad

/-- **What a batch store does to entries and pages**, however its commands are answered: unless the
allocator refused a release, it rolled back and threw, or published and returned. -/
theorem doBatchSet_books {g : StorageGeometry} {slots : List Slot} {ℓ : Log} {o : Except Exn Ret}
    (h : Yields (doBatchSet g slots) ℓ o) :
    (refused ℓ ≠ [] ∨ (∃ x, o = .error x) ∧ RolledBack ℓ ∨
      o = .ok .unit ∧ ∃ states rs ℓ1 ℓ2, ℓ = ℓ1 ++ ℓ2 ∧ Acquires (slots.map Slot.key) states ℓ1 ∧
        Published slots states rs ℓ) ∧
    WritesFirst ℓ := by
  obtain ⟨states, ℓ1, ℓ2, ℓ3, rfl, ha, h2, hi3, ht3⟩ := onStates_yields h
  obtain ⟨x, -, h4⟩ | ⟨⟨failed, rs, items⟩, ℓ4, ℓ5, rfl, h4, h5⟩ := Yields.of_bind h2
  · obtain ⟨_, _, _, _, hbad, -⟩ := reserveAll_books h4
    cases hbad
  obtain ⟨failed', new, items', qs, hok, hb4, ht4, hr⟩ := reserveAll_books h4
  cases hok
  rw [List.nil_append] at h5
  -- a rollback after the log `w` of the writes
  have rolled : ∀ (w u : Log), ℓ5 = w ++ u → Idle w → transfers u = [] → (∃ y, o = .error y) →
      (refused u ≠ [] ∨ Books u [] [] [] (new.flatMap fun r => r.entry.extents) []) →
      (refused (ℓ1 ++ (ℓ4 ++ ℓ5 ++ ℓ3)) ≠ [] ∨ (∃ x, o = .error x) ∧ RolledBack (ℓ1 ++ (ℓ4 ++ ℓ5 ++ ℓ3))) ∧
        WritesFirst (ℓ1 ++ (ℓ4 ++ ℓ5 ++ ℓ3)) := by
    rintro w u rfl hw htu ho hu
    refine ⟨?_, ℓ1 ++ (ℓ4 ++ w), u ++ ℓ3, by simp, by simp [ha.idle.returned, hb4.returned, hw.returned],
      by simp [htu, ht3]⟩
    rcases hu with hu | hu
    · left
      simp [ha.idle.refused, hb4.refused, hw.refused, hu]
    · right
      refine ⟨ho, ?_, ?_⟩
      · simp [ha.idle.bindings, hb4.bindings, hw.bindings, hu.bindings, hi3.bindings]
      · simp [ha.idle.returned, hb4.returned, hw.returned, hu.returned, hi3.returned, ha.idle.granted,
          hb4.granted, hw.granted, hu.granted, hi3.granted]
  have idle_nil : Idle ([] : Log) := idle_of_silent nofun
  cases failed with
  | some x =>
    obtain ⟨y, rfl, h6⟩ | ⟨u, ℓ6, ℓ7, rfl, h6, -⟩ := Yields.of_bind h5
    · obtain ⟨hu, htu, -⟩ := unreserve_books h6
      obtain ⟨h7, h8⟩ := rolled [] ℓ5 rfl idle_nil htu ⟨y, rfl⟩ hu
      exact ⟨h7.imp_right .inl, h8⟩
    · obtain ⟨-, -, y, hbad⟩ := unreserve_books h6
      cases hbad
  | none =>
    obtain ⟨y, rfl, h6⟩ | ⟨u, ℓ6, ℓ7, rfl, h6, h7⟩ := Yields.of_bind h5
    · obtain ⟨a, hbad, -⟩ | ⟨e, w, u, rfl, h8, h9⟩ := Yields.of_tryCatch h6
      · cases hbad
      · obtain ⟨hu, htu, -⟩ := unreserve_books h9
        have hw := idle_of_silent ((only_writeAll g items _).yields h8)
        obtain ⟨h10, h11⟩ := rolled w u rfl hw htu ⟨y, rfl⟩ hu
        exact ⟨h10.imp_right .inl, h11⟩
    · have hw : Idle ℓ6 := by
        obtain ⟨a, -, h8⟩ | ⟨e, w, u, -, -, h9⟩ := Yields.of_tryCatch h6
        · exact idle_of_silent ((only_writeAll g items _).yields h8)
        · obtain ⟨-, -, y, hbad⟩ := unreserve_books h9
          cases hbad
      obtain ⟨hpub, ht7⟩ := publish_books h7
      refine ⟨?_, ℓ1 ++ (ℓ4 ++ ℓ6), ℓ7 ++ ℓ3, by simp, by simp [ha.idle.returned, hb4.returned, hw.returned],
        by simp [ht7, ht3]⟩
      rcases hpub with hpub | ⟨rfl, hpub⟩
      · left
        simp [ha.idle.refused, hb4.refused, hw.refused, hpub]
      · obtain ⟨hres, hkeys, -⟩ := hr rfl
        have hlen : states.length = slots.length := by simpa using ha.length
        refine .inr (.inr ⟨rfl, states, new, ℓ1, _, rfl, ha, locate_keys hlen ▸ hkeys, hlen, ?_, ?_, ?_, ?_,
          ℓ1 ++ (ℓ4 ++ ℓ6), ℓ7 ++ ℓ3, by simp, ?_, ?_⟩)
        · simpa [ha.idle.looked, hb4.looked, hw.looked, hpub.looked, hi3.looked] using hres
        · simp [ha.idle.bindings, hb4.bindings, hw.bindings, hpub.bindings, hi3.bindings]
        · simp [ha.idle.granted, hb4.granted, hw.granted, hpub.granted, hi3.granted]
        · simp [ha.idle.returned, hb4.returned, hw.returned, hpub.returned, hi3.returned]
        · simp [ha.idle.bindings, hb4.bindings, hw.bindings]
        · simp [hpub.looked, hi3.looked]

end SpdkConnector
