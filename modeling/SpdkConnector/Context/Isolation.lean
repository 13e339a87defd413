import SpdkConnector.Context.Calm

/-!
# Data isolation

What the bytes of a request are while it is live: a leased buffer is its own, a write has its bytes staged
and moves them to its own range, a read has in its buffer what its range holds. `Holds` says it of one
request, `Isolated` of all; a move of one request `Spares` the others, since no two live items overlap where
one of them writes. Every move keeps it, as long as no pool is released and no batch overlaps a live one.
-/

namespace SpdkConnector
namespace SpdkBdevContext

open Interleaving

variable {e : Env} {κ κ' : Core} {r r' : Ref} {w : Nat}

/-- The byte a write leaves at position `j` of its range. -/
def writtenByte (memory : Nat → Nat → UInt8) (it : IoBatchItem) (j : Nat) : UInt8 :=
  if j < it.logicalLength then it.buffer.elim 0 fun p => memory p.buffer (p.offset + j) else 0

theorem stagedByte_written {memory : Nat → Nat → UInt8} {it : IoBatchItem} {old : Nat → UInt8} {j : Nat}
    (h : j < it.physicalLength) : stagedByte memory it old j = writtenByte memory it j := by
  unfold stagedByte writtenByte
  rw [if_pos h]

/-- The logical bytes of an item's range. -/
def deviceBytes (device : Nat → UInt8) (it : IoBatchItem) : Bytes :=
  (List.range it.logicalLength).map fun j => device (it.byteOffset + j)

/-- The bytes of the caller an item covers. -/
def CallerBytes (it : IoBatchItem) (buffer a : Nat) : Prop :=
  ∃ p, it.buffer = some p ∧ buffer = p.buffer ∧ p.offset ≤ a ∧ a < p.offset + it.logicalLength

/-- No item of the batch but the `i`th covers the byte. -/
def Unshared (items : List IoBatchItem) (i buffer a : Nat) : Prop :=
  ∀ j it, j ≠ i → items[j]? = some it → ¬ CallerBytes it buffer a

theorem copyToCaller_other {memory : Nat → Nat → UInt8} {it : IoBatchItem} {bytes : Bytes} {buffer a : Nat}
    (hlen : bytes.length = it.logicalLength) (h : ¬ CallerBytes it buffer a) :
    copyToCaller memory it bytes buffer a = memory buffer a := by
  unfold copyToCaller
  split
  · rfl
  · rename_i p hp
    rw [if_neg fun hin => h ⟨p, hp, hin.1, hin.2.1, hlen ▸ hin.2.2⟩]

theorem copyToCaller_own {memory : Nat → Nat → UInt8} {it : IoBatchItem} {bytes : Bytes} {p : CallerPtr} {j : Nat}
    (hp : it.buffer = some p) (hj : j < bytes.length) :
    copyToCaller memory it bytes p.buffer (p.offset + j) = bytes.getD j 0 := by
  unfold copyToCaller
  simp only [hp, true_and]
  rw [if_pos ⟨by omega, by omega⟩, Nat.add_sub_cancel_left]

/-- The bytes of the request's buffer `k`. -/
def Core.lent (κ : Core) (r : Ref) (k : Nat) : Nat → UInt8 :=
  κ.dma (κ.request r).worker ((κ.pool (κ.request r).worker).buffers.getD k 0)

/-- What is known of a request's bytes. -/
structure Holds (e : Env) (κ : Core) (r : Ref) : Prop where
  command : ∀ c k, κ.stage r = .inFlight c → (κ.request r).bufferIndex = some k →
    c.start e = (κ.request r).item.byteOffset ∧ c.length e = (κ.request r).item.physicalLength ∧
    c.moved ≤ c.length e ∧ c.buffer = (κ.pool (κ.request r).worker).buffers.getD k 0
  staged : ∀ c k, κ.stage r = .inFlight c → (κ.request r).bufferIndex = some k →
    (κ.request r).operation = .write → ∀ j < (κ.request r).item.physicalLength,
      κ.lent r k j = writtenByte (κ.batch r.1).memory (κ.request r).item j
  moved : ∀ c k, κ.stage r = .inFlight c → (κ.request r).bufferIndex = some k → c.disturbed = false →
    ∀ j < c.moved, κ.lent r k j = κ.device ((κ.request r).item.byteOffset + j)
  read : ∀ k, κ.stage r = .reported true → (κ.request r).bufferIndex = some k →
    (κ.request r).operation = .read → ∀ j < (κ.request r).item.physicalLength,
      κ.lent r k j = κ.device ((κ.request r).item.byteOffset + j)
  written : κ.stage r ≠ .absent → (κ.request r).reported = some true → (κ.request r).operation = .write →
    (κ.batch r.1).caller.Live → ∀ j < (κ.request r).item.physicalLength,
      κ.device ((κ.request r).item.byteOffset + j) = writtenByte (κ.batch r.1).memory (κ.request r).item j
  copied : κ.stage r ≠ .absent → (κ.batch r.1).caller.Live → ∀ bytes, (κ.request r).copied = some bytes →
    bytes = deviceBytes κ.device (κ.request r).item
  put : κ.stage r ≠ .absent → (κ.batch r.1).caller.Live → (κ.request r).copied ≠ none →
    ∀ p, (κ.request r).item.buffer = some p → ∀ j < (κ.request r).item.logicalLength,
      Unshared (κ.batch r.1).items r.2 p.buffer (p.offset + j) →
      (κ.batch r.1).memory p.buffer (p.offset + j) = κ.device ((κ.request r).item.byteOffset + j)

/-- What a move of another request leaves a request: its memory if it writes, its own part of it if it reads,
its buffer, its range. -/
structure Spares (κ κ' : Core) (r : Ref) : Prop where
  items : κ.stage r ≠ .absent → (κ'.batch r.1).items = (κ.batch r.1).items
  put : κ.stage r ≠ .absent → ∀ buffer a, Unshared (κ.batch r.1).items r.2 buffer a →
    (κ'.batch r.1).memory buffer a = (κ.batch r.1).memory buffer a
  memory : κ.stage r ≠ .absent → (κ.request r).operation = .write → (κ'.batch r.1).memory = (κ.batch r.1).memory
  buffers : ∀ k, (κ.stage r).Leases → (κ.request r).bufferIndex = some k →
    (κ'.pool (κ.request r).worker).buffers = (κ.pool (κ.request r).worker).buffers
  lent : ∀ k, (κ.stage r).Leases → (κ.request r).bufferIndex = some k →
    κ'.dma (κ.request r).worker ((κ.pool (κ.request r).worker).buffers.getD k 0) = κ.lent r k
  device : κ.stage r ≠ .absent → (κ.batch r.1).caller.Live → ∀ a, ItemBytes (κ.request r).item a →
    κ'.device a = κ.device a

theorem Spares.same (hitems : (κ'.batch r.1).items = (κ.batch r.1).items)
    (hmemory : (κ'.batch r.1).memory = (κ.batch r.1).memory) (hpool : κ'.pool = κ.pool)
    (hdma : κ'.dma = κ.dma) (hdevice : κ'.device = κ.device) : Spares κ κ' r where
  items _ := hitems
  put _ _ _ _ := by rw [hmemory]
  memory _ _ := hmemory
  buffers _ _ _ := by rw [hpool]
  lent _ _ _ := by rw [hdma]; rfl
  device _ _ _ _ := by rw [hdevice]

/-- A request that is built has the item and the operation it was built with. -/
theorem built_ok (hc : Consistent e κ) (h : κ.stage r ≠ .absent) :
    (κ.request r).item ∈ (κ.batch r.1).items ∧ (κ.request r).item.Ok e.geometry ∧
    (κ.request r).operation = (κ.batch r.1).operation := by
  have hlt : r.2 < (κ.batch r.1).items.length := by
    rw [← Nat.not_le, ← hc.absent_iff]
    exact h
  obtain ⟨hitem, -, hop⟩ := hc.built r.1 r.2 _ (List.getElem?_eq_getElem hlt)
  have hmem : (κ.request r).item ∈ (κ.batch r.1).items := by
    rw [hitem]
    exact List.getElem_mem hlt
  exact ⟨hmem, hc.item_ok r.1 _ hmem, hop⟩

/-- A request with a buffer is one its caller waits for. -/
theorem leases_live (hc : Consistent e κ) (h : (κ.stage r).Leases) :
    κ.stage r ≠ .absent ∧ (κ.batch r.1).caller.Live := by
  have hbuilt : κ.stage r ≠ .absent := by
    intro habsent
    rw [habsent] at h
    exact h
  have hlt : r.2 < (κ.batch r.1).items.length := by
    rw [← Nat.not_le, ← hc.absent_iff]
    exact hbuilt
  refine ⟨hbuilt, fun habsent => ?_, fun hreturned => ?_⟩
  · rw [hc.idle_items r.1 habsent] at hlt
    exact Nat.not_lt_zero _ hlt
  · have hzero := hc.returned r.1 (.inr hreturned)
    rw [hc.remaining r.1] at hzero
    have hclosed := openCount_zero hzero r.2 hlt
    revert h hclosed
    cases κ.stage r <;> simp [Stage.Leases, Stage.Open]

/-- A request that is spared keeps what is known of it. -/
theorem Holds.frame (h : Holds e κ r) (hc : Consistent e κ) (hq : SameIo (κ.request r) (κ'.request r))
    (hs : κ'.stage r = κ.stage r) (hlive : (κ'.batch r.1).caller.Live → (κ.batch r.1).caller.Live)
    (hspared : Spares κ κ' r) : Holds e κ' r := by
  obtain ⟨hworker, -, hop, hitem, hindex, -, -, hreported, hcopied⟩ := hq
  have hlent : ∀ k, (κ.stage r).Leases → (κ.request r).bufferIndex = some k → κ'.lent r k = κ.lent r k := by
    intro k hl hk
    rw [Core.lent, hworker, hspared.buffers k hl hk]
    exact hspared.lent k hl hk
  have hrange : (κ.stage r).Leases → ∀ j < (κ.request r).item.physicalLength,
      κ'.device ((κ.request r).item.byteOffset + j) = κ.device ((κ.request r).item.byteOffset + j) := by
    intro hl j hj
    obtain ⟨h1, h2⟩ := leases_live hc hl
    exact hspared.device h1 h2 _ ⟨by omega, by omega⟩
  constructor
  · intro c k hst hk
    rw [hs] at hst
    rw [hindex] at hk
    rw [hitem, hworker, hspared.buffers k (by rw [hst]; trivial) hk]
    exact h.command c k hst hk
  · intro c k hst hk hwrite j hj
    rw [hs] at hst
    rw [hindex] at hk
    rw [hop] at hwrite
    rw [hitem] at hj ⊢
    rw [hlent k (by rw [hst]; trivial) hk, hspared.memory (by simp [hst]) hwrite]
    exact h.staged c k hst hk hwrite j hj
  · intro c k hst hk hclean j hj
    rw [hs] at hst
    rw [hindex] at hk
    obtain ⟨-, hlength, hle, -⟩ := h.command c k hst hk
    have hl : (κ.stage r).Leases := by rw [hst]; trivial
    rw [hitem, hlent k hl hk, hrange hl j (by omega)]
    exact h.moved c k hst hk hclean j hj
  · intro k hst hk hread j hj
    rw [hs] at hst
    rw [hindex] at hk
    rw [hop] at hread
    rw [hitem] at hj ⊢
    have hl : (κ.stage r).Leases := by rw [hst]; trivial
    rw [hlent k hl hk, hrange hl j hj]
    exact h.read k hst hk hread j hj
  · intro hbuilt hdone hwrite hl j hj
    rw [hs] at hbuilt
    rw [hreported] at hdone
    rw [hop] at hwrite
    rw [hitem] at hj ⊢
    rw [hspared.device hbuilt (hlive hl) _ ⟨by omega, by omega⟩, hspared.memory hbuilt hwrite]
    exact h.written hbuilt hdone hwrite (hlive hl) j hj
  · intro hbuilt hl bytes hbytes
    rw [hs] at hbuilt
    rw [hcopied] at hbytes
    rw [hitem, h.copied hbuilt (hlive hl) bytes hbytes]
    have hlogical := (built_ok hc hbuilt).2.1.logical_le
    refine List.map_congr_left fun j hj => ?_
    have hj' := List.mem_range.1 hj
    exact (hspared.device hbuilt (hlive hl) _ ⟨by omega, by omega⟩).symm
  · intro hbuilt hl hdone p hp j hj hown
    rw [hs] at hbuilt
    rw [hcopied] at hdone
    rw [hspared.items hbuilt] at hown
    rw [hitem] at hp hj ⊢
    have hlogical := (built_ok hc hbuilt).2.1.logical_le
    rw [hspared.put hbuilt _ _ hown, hspared.device hbuilt (hlive hl) _ ⟨by omega, by omega⟩]
    exact h.put hbuilt (hlive hl) hdone p hp j hj hown

/-- A request without a buffer, that no command of it has succeeded and that has not been copied. -/
theorem Holds.idle (hs : ¬ (κ.stage r).Leases)
    (hreported : κ.stage r ≠ .absent → (κ.request r).reported ≠ some true)
    (hcopied : κ.stage r ≠ .absent → (κ.request r).copied = none) : Holds e κ r where
  command _ _ hst := absurd (by rw [hst]; trivial) hs
  staged _ _ hst := absurd (by rw [hst]; trivial) hs
  moved _ _ hst := absurd (by rw [hst]; trivial) hs
  read _ hst := absurd (by rw [hst]; trivial) hs
  written hbuilt hdone := absurd hdone (hreported hbuilt)
  copied hbuilt _ _ hbytes := by
    rw [hcopied hbuilt] at hbytes
    cases hbytes
  put hbuilt _ hdone := absurd (hcopied hbuilt) hdone

/-- No two live requests overlap where one writes, and each has its bytes. -/
structure Isolated (e : Env) (κ : Core) : Prop where
  apart : ∀ r r', r ≠ r' → κ.stage r ≠ .absent → κ.stage r' ≠ .absent → (κ.batch r.1).caller.Live →
    (κ.batch r'.1).caller.Live →
    ¬ Conflict (κ.request r).operation (κ.request r').operation (κ.request r).item (κ.request r').item
  holds : ∀ r, Holds e κ r

/-- Two requests on a worker have different buffers. -/
theorem Pooled.buffer_ne (hp : Pooled κ) {k k' : Nat} (hne : r ≠ r') (hl : (κ.stage r).Leases)
    (hl' : (κ.stage r').Leases) (hw : (κ.request r).worker = (κ.request r').worker)
    (hk : (κ.request r).bufferIndex = some k) (hk' : (κ.request r').bufferIndex = some k') :
    (κ.pool (κ.request r).worker).buffers.getD k 0 ≠ (κ.pool (κ.request r').worker).buffers.getD k' 0 := by
  intro he
  obtain ⟨hwf, hnodup⟩ := hp.pool (κ.request r').worker
  rw [hw] at he
  have hlt := hwf.leased_lt (hw ▸ hp.lease r k hl hk)
  have hlt' := hwf.leased_lt (hp.lease r' k' hl' hk')
  simp only [List.getD_eq_getElem?_getD, List.getElem?_eq_getElem hlt, List.getElem?_eq_getElem hlt',
    Option.getD_some] at he
  have hkk := (List.getElem_inj hnodup).1 he
  subst hkk
  exact hne (hp.alone r r' k hl hl' hw hk hk')

/-- One request changes, and the others are spared. -/
theorem Isolated.turn (hi : Isolated e κ) (hc : Consistent e κ) {t : Stage} {q : IoRequest}
    (hstage : κ'.stage = Function.update κ.stage r t) (hreq : κ'.request = Function.update κ.request r q)
    (hq : q.operation = (κ.request r).operation ∧ q.item = (κ.request r).item)
    (hlive : ∀ b, (κ'.batch b).caller = (κ.batch b).caller) (hbuilt : κ.stage r ≠ .absent)
    (hothers : ∀ r', r' ≠ r → Spares κ κ' r') (hself : Holds e κ' r) : Isolated e κ' := by
  have hsame : ∀ r', r' ≠ r → κ'.stage r' = κ.stage r' ∧ κ'.request r' = κ.request r' := by
    intro r' hne
    rw [hstage, hreq, Function.update_of_ne hne, Function.update_of_ne hne]
    exact ⟨rfl, rfl⟩
  have hold : ∀ r', κ'.stage r' ≠ .absent → κ.stage r' ≠ .absent ∧
      (κ'.request r').operation = (κ.request r').operation ∧ (κ'.request r').item = (κ.request r').item := by
    intro r' hb
    rcases eq_or_ne r' r with rfl | hne'
    · rw [hreq, Function.update_self]
      exact ⟨hbuilt, hq⟩
    · obtain ⟨hs', hq'⟩ := hsame r' hne'
      rw [hq']
      exact ⟨hs' ▸ hb, rfl, rfl⟩
  refine ⟨fun r1 r2 hne hb1 hb2 hv1 hv2 => ?_, fun r' => ?_⟩
  · obtain ⟨h1, hop1, hitem1⟩ := hold r1 hb1
    obtain ⟨h2, hop2, hitem2⟩ := hold r2 hb2
    rw [hop1, hop2, hitem1, hitem2]
    exact hi.apart r1 r2 hne h1 h2 (hlive r1.1 ▸ hv1) (hlive r2.1 ▸ hv2)
  · rcases eq_or_ne r' r with rfl | hne
    · exact hself
    · obtain ⟨hs', hq'⟩ := hsame r' hne
      refine (hi.holds r').frame hc ?_ hs' (fun hv => hlive r'.1 ▸ hv) (hothers r' hne)
      rw [hq']
      exact ⟨rfl, rfl, rfl, rfl, rfl, rfl, rfl, rfl, rfl⟩

/-- No request changes but in its place. -/
theorem Isolated.keep (hi : Isolated e κ) (hq : ∀ r, SameIo (κ.request r) (κ'.request r))
    (hbuilt : ∀ r, κ'.stage r ≠ .absent → κ.stage r ≠ .absent)
    (hlive : ∀ b, (κ'.batch b).caller.Live → (κ.batch b).caller.Live) (hholds : ∀ r, Holds e κ' r) :
    Isolated e κ' := by
  refine ⟨fun r1 r2 hne hb1 hb2 hv1 hv2 => ?_, hholds⟩
  obtain ⟨-, -, hop1, hitem1, -⟩ := hq r1
  obtain ⟨-, -, hop2, hitem2, -⟩ := hq r2
  rw [hop1, hop2, hitem1, hitem2]
  exact hi.apart r1 r2 hne (hbuilt r1 hb1) (hbuilt r2 hb2) (hlive _ hv1) (hlive _ hv2)

theorem SameIo.refl (q : IoRequest) : SameIo q q := ⟨rfl, rfl, rfl, rfl, rfl, rfl, rfl, rfl, rfl⟩

/-! ## Moves -/

/-- The range of a write is no other live item's. -/
theorem range_apart (hi : Isolated e κ) (hc : Consistent e κ) (hl : (κ.stage r).Leases)
    (hwrite : (κ.request r).operation = .write) (hne : r' ≠ r) (hbuilt : κ.stage r' ≠ .absent)
    (hlive : (κ.batch r'.1).caller.Live) {a : Nat} (ha : ItemBytes (κ.request r').item a) :
    ¬ ItemBytes (κ.request r).item a := by
  intro ha'
  obtain ⟨hb, hv⟩ := leases_live hc hl
  exact hi.apart r' r hne hbuilt hb hlive hv ⟨.inr hwrite, a, ha, ha'⟩

/-- A buffer on worker `w` changes: it is not that of a request with another one. -/
theorem setDma_other {buffer w' buffer' : Nat} {bytes : Nat → UInt8} (h : w' = w → buffer' ≠ buffer) :
    Function.update κ.dma w (Function.update (κ.dma w) buffer bytes) w' buffer' = κ.dma w' buffer' := by
  rcases eq_or_ne w' w with rfl | hw
  · rw [Function.update_self, Function.update_of_ne (h rfl)]
  · rw [Function.update_of_ne hw]

theorem post_isolated (hi : Isolated e κ) (hc : Consistent e κ) {rs : List Ref} {marks : Mark → Prop}
    (hrs : ∀ r ∈ rs, κ.stage r = .held) :
    Isolated e { κ with stage := fun r => if r ∈ rs then .queued else κ.stage r, marks := marks } := by
  refine hi.keep (fun r => .refl _) (fun r hb => ?_) (fun _ => id) fun r => ?_
  · by_cases hr : r ∈ rs
    · rw [hrs r hr]
      simp
    · simpa [hr] using hb
  · by_cases hr : r ∈ rs
    · have hfits := hc.fits r
      rw [hrs r hr] at hfits
      refine .idle (by simp [hr, Stage.Leases]) (fun _ => ?_) fun _ => hfits.2.2.2.2
      show (κ.request r).reported ≠ some true
      rw [hfits.2.2.2.1]
      simp
    · exact (hi.holds r).frame hc (.refl _) (by simp [hr]) id (.same rfl rfl rfl rfl rfl)

theorem note_isolated (hi : Isolated e κ) (hc : Consistent e κ) {q : IoRequest} (hq : SameIo (κ.request r) q) :
    Isolated e (κ.setRequest r q) := by
  have hsame : ∀ r', SameIo (κ.request r') ((κ.setRequest r q).request r') := by
    intro r'
    rcases eq_or_ne r' r with rfl | hne
    · simpa using hq
    · simpa [hne] using SameIo.refl _
  exact hi.keep hsame (fun _ => id) (fun _ => id)
    fun r' => (hi.holds r').frame hc (hsame r') rfl id (.same rfl rfl rfl rfl rfl)

theorem scribble_isolated (hp : Pooled κ) (hi : Isolated e κ) (hc : Consistent e κ) {buffer : Nat} {bytes : Nat → UInt8}
    (hfree : ∀ k, (κ.pool w).Leased k → (κ.pool w).buffers.getD k 0 ≠ buffer) :
    Isolated e (κ.setDma w buffer bytes) := by
  refine hi.keep (fun _ => .refl _) (fun _ => id) (fun _ => id) fun r => ?_
  refine (hi.holds r).frame hc (.refl _) rfl id ⟨fun _ => rfl, fun _ _ _ _ => rfl, fun _ _ => rfl, fun _ _ _ => rfl,
    fun k hl hk => ?_, fun _ _ _ _ => rfl⟩
  refine setDma_other fun hw => ?_
  have hleased := hp.lease r k hl hk
  rw [hw] at hleased ⊢
  exact hfree k hleased

theorem caller_isolated (hi : Isolated e κ) (hc : Consistent e κ) {b : Nat} {pc : CallerPc}
    (hm : CallerMove (κ.batch b) pc) : Isolated e (κ.setBatch b { κ.batch b with caller := pc }) := by
  have hlive : ∀ c, ((κ.setBatch b { κ.batch b with caller := pc }).batch c).caller.Live →
      (κ.batch c).caller.Live := by
    intro c hv
    rcases eq_or_ne c b with rfl | hc
    · exact hm.live
    · simpa [hc] using hv
  refine hi.keep (fun _ => .refl _) (fun _ => id) hlive fun r => ?_
  refine (hi.holds r).frame hc (.refl _) rfl (hlive r.1) (.same ?_ ?_ rfl rfl rfl)
  · rcases eq_or_ne r.1 b with hb | hb
    · simp [hb]
    · simp [hb]
  · rcases eq_or_ne r.1 b with hb | hb
    · simp [hb]
    · simp [hb]

theorem fillPool_isolated (hp : Pooled κ) (hi : Isolated e κ) (hc : Consistent e κ)
    {bufferSize bufferAlignment : Nat} {buffers : List Nat} (hini : (κ.pool w).initialized = false) :
    Isolated e { κ.setPool w (SpdkBufferPool.filled bufferSize bufferAlignment buffers) with
      dma := Function.update κ.dma w fun _ _ => 0 } := by
  have hother : ∀ r k, (κ.stage r).Leases → (κ.request r).bufferIndex = some k → (κ.request r).worker ≠ w := by
    rintro r k hl hk rfl
    rw [(hp.pool _).1.leased_initialized (hp.lease r k hl hk)] at hini
    cases hini
  refine hi.keep (fun _ => .refl _) (fun _ => id) (fun _ => id) fun r => ?_
  refine (hi.holds r).frame hc (.refl _) rfl id ⟨fun _ => rfl, fun _ _ _ _ => rfl, fun _ _ => rfl, fun k hl hk => ?_,
    fun k hl hk => ?_, fun _ _ _ _ => rfl⟩
  · simp [hother r k hl hk]
  · simp [hother r k hl hk, Core.lent]

theorem submit_isolated (hi : Isolated e κ) (hc : Consistent e κ) {b : Nat} {op : Operation}
    {items : List IoBatchItem} {memory : Nat → Nat → UInt8} {pc : CallerPc} {req : Nat → IoRequest}
    {marks : Mark → Prop} (hnew : (κ.batch b).caller = .absent)
    (hreq : ∀ i it, items[i]? = some it → Fresh (req i) i op it) (hoverlap : NoOverlap κ.batch op items) :
    Isolated e { κ with
        batch := Function.update κ.batch b
          ⟨op, items, items.length, List.replicate items.length ⟨false, ""⟩, memory, pc⟩
        request := fun r => if r.1 = b ∧ r.2 < items.length then req r.2 else κ.request r
        stage := fun r => if r.1 = b ∧ r.2 < items.length then .held else κ.stage r
        marks := marks } := by
  -- a request is of the new batch, or built before and of another
  have hsplit : ∀ r : Ref, (if r.1 = b ∧ r.2 < items.length then Stage.held else κ.stage r) ≠ .absent →
      (r.1 = b ∧ ∃ it, items[r.2]? = some it ∧ Fresh (req r.2) r.2 op it ∧ r.2 < items.length) ∨
      (r.1 ≠ b ∧ κ.stage r ≠ .absent) := by
    intro r hb
    by_cases hr : r.1 = b ∧ r.2 < items.length
    · exact .inl ⟨hr.1, _, List.getElem?_eq_getElem hr.2, hreq _ _ (List.getElem?_eq_getElem hr.2), hr.2⟩
    · rw [if_neg hr] at hb
      refine .inr ⟨fun hrb => hb ?_, hb⟩
      obtain ⟨c, j⟩ := r
      simp only at hrb
      subst hrb
      rw [hc.absent_iff, hc.idle_items c hnew]
      exact Nat.zero_le j
  have hold : ∀ r : Ref, r.1 ≠ b → ¬ (r.1 = b ∧ r.2 < items.length) := fun r hr h => hr h.1
  refine ⟨fun r1 r2 hne hb1 hb2 hv1 hv2 => ?_, fun r => ?_⟩
  · rcases hsplit r1 hb1 with ⟨hr1, it1, hit1, hf1, hlt1⟩ | ⟨hr1, hb1'⟩ <;>
      rcases hsplit r2 hb2 with ⟨hr2, it2, hit2, hf2, hlt2⟩ | ⟨hr2, hb2'⟩
    · simp only [if_pos (And.intro hr1 hlt1), if_pos (And.intro hr2 hlt2), hf1.operation, hf2.operation, hf1.item,
        hf2.item]
      refine hoverlap.1 r1.2 r2.2 it1 it2 hit1 hit2 fun heq => hne ?_
      exact Prod.ext (hr1.trans hr2.symm) heq
    · simp only [if_pos (And.intro hr1 hlt1), if_neg (hold r2 hr2), hf1.operation, hf1.item]
      simp only [Function.update_of_ne hr2] at hv2
      obtain ⟨hmem, -, hop⟩ := built_ok hc hb2'
      rw [hop]
      exact hoverlap.2 r2.1 it1 _ hv2 (List.mem_of_getElem? hit1) hmem
    · simp only [if_neg (hold r1 hr1), if_pos (And.intro hr2 hlt2), hf2.operation, hf2.item]
      simp only [Function.update_of_ne hr1] at hv1
      obtain ⟨hmem, -, hop⟩ := built_ok hc hb1'
      rw [hop]
      rintro ⟨hwrite, a, ha, ha'⟩
      exact hoverlap.2 r1.1 it2 _ hv1 (List.mem_of_getElem? hit2) hmem ⟨hwrite.symm, a, ha', ha⟩
    · simp only [if_neg (hold r1 hr1), if_neg (hold r2 hr2)]
      simp only [Function.update_of_ne hr1] at hv1
      simp only [Function.update_of_ne hr2] at hv2
      exact hi.apart r1 r2 hne hb1' hb2' hv1 hv2
  · by_cases hr : r.1 = b ∧ r.2 < items.length
    · have hf := hreq _ _ (List.getElem?_eq_getElem hr.2)
      refine .idle (by simp [hr, Stage.Leases]) (fun _ => ?_) fun _ => ?_
      · simp [hr, hf.reported]
      · simp [hr, hf.copied]
    · by_cases hrb : r.1 = b
      · have habsent : κ.stage r = .absent := by
          obtain ⟨c, j⟩ := r
          simp only at hrb
          subst hrb
          rw [hc.absent_iff, hc.idle_items c hnew]
          exact Nat.zero_le j
        refine .idle ?_ (fun hb => ?_) fun hb => ?_
        · simp [hr, habsent, Stage.Leases]
        · simp [hr, habsent] at hb
        · simp [hr, habsent] at hb
      · have hbatch : (Function.update κ.batch b
            ⟨op, items, items.length, List.replicate items.length ⟨false, ""⟩, memory, pc⟩) r.1 = κ.batch r.1 :=
          Function.update_of_ne hrb _ _
        refine (hi.holds r).frame hc ?_ (by simp [hr]) (fun hv => by simpa [hbatch] using hv)
          (.same (by simp [hbatch]) (by simp [hbatch]) rfl rfl rfl)
        simpa [hr] using SameIo.refl _

/-- A page-aligned position is that of a block. -/
theorem blocks_mul (hg : e.geometry.Valid) {a : Nat} (ha : a % e.geometry.pageSize = 0) :
    a / e.geometry.blockSize * e.geometry.blockSize = a := by
  refine Nat.div_mul_cancel (Dvd.dvd.trans ?_ (Nat.dvd_of_mod_eq_zero ha))
  rw [hg.pageSize_eq]
  exact Nat.dvd_mul_right _ _

theorem getD_ne {p : SpdkBufferPool} {k k' : Nat} (hnodup : p.buffers.Nodup) (hk : k < p.buffers.length)
    (hk' : k' < p.buffers.length) (hne : k' ≠ k) : p.buffers.getD k' 0 ≠ p.buffers.getD k 0 := by
  simp only [List.getD_eq_getElem?_getD, List.getElem?_eq_getElem hk, List.getElem?_eq_getElem hk',
    Option.getD_some]
  exact fun he => hne ((List.getElem_inj hnodup).1 he)

theorem accept_isolated (hg : e.geometry.Valid) (hp : Pooled κ) (hi : Isolated e κ) (hc : Consistent e κ)
    {k : Nat} {free : List Nat}
    (h : κ.stage r = .queued)
    (hfree : (κ.pool (κ.request r).worker).freeIndexes = k :: free) : Isolated e (κ.accept e r k free) := by
  obtain ⟨hwf, hnodup⟩ := hp.pool (κ.request r).worker
  obtain ⟨hlt, hk⟩ := (hwf.free_iff k).1 (by simp [hfree])
  obtain ⟨-, hok, -⟩ := built_ok (r := r) hc (by simp [h])
  have hfits := hc.fits r
  rw [h] at hfits
  obtain ⟨-, -, -, hreported, hcopied⟩ := hfits
  -- the index was free, so no other request has it
  have hother : ∀ r' k', (κ.stage r').Leases → (κ.request r').worker = (κ.request r).worker →
      (κ.request r').bufferIndex = some k' → k' ≠ k := by
    rintro r' k' hl hw hk' rfl
    have hleased := hp.lease r' k' hl hk'
    rw [hw] at hleased
    exact hk hleased
  refine hi.turn hc rfl rfl ⟨rfl, rfl⟩ (fun _ => rfl) (by simp [h]) (fun r' hne => ?_) ?_
  · refine ⟨fun _ => rfl, fun _ _ _ _ => rfl, fun _ _ => rfl, fun k' hl hk' => ?_,
      fun k' hl hk' => ?_, fun _ _ _ _ => rfl⟩
    · rcases eq_or_ne (κ.request r').worker (κ.request r).worker with hw | hw
      · simp [Core.accept, hw]
      · simp [Core.accept, hw]
    · refine setDma_other fun hw => ?_
      have hleased := hp.lease r' k' hl hk'
      rw [hw] at hleased ⊢
      exact getD_ne hnodup hlt (hwf.leased_lt hleased) (hother r' k' hl hw hk')
  · have hstage : (κ.accept e r k free).stage r = .inFlight (commandFor e r (κ.request r)
        ((κ.pool (κ.request r).worker).buffers.getD k 0)) := Function.update_self _ _ _
    have hreq : (κ.accept e r k free).request r = { κ.request r with bufferIndex := some k } :=
      Function.update_self _ _ _
    have hpool : (κ.accept e r k free).pool (κ.request r).worker =
        { κ.pool (κ.request r).worker with freeIndexes := free, inUse := (κ.pool (κ.request r).worker).inUse.set k true } :=
      Function.update_self _ _ _
    refine ⟨fun c k' hst hk' => ?_, fun c k' hst hk' hwrite j hj => ?_, fun c k' hst _ _ j hj => ?_, fun k' hst => ?_,
      fun _ hdone => ?_, fun _ _ bytes hbytes => ?_, fun _ _ hdone => ?_⟩
    · rw [hstage] at hst
      rw [hreq] at hk' ⊢
      obtain rfl : k = k' := by simpa using hk'
      obtain rfl := Stage.inFlight.inj hst
      rw [hpool]
      exact ⟨blocks_mul hg hok.offset_aligned, blocks_mul hg hok.physical_aligned, Nat.zero_le _, rfl⟩
    · rw [hreq] at hk' hwrite hj ⊢
      obtain rfl : k = k' := by simpa using hk'
      rw [Core.lent, hreq, hpool]
      simp only [Core.accept, Core.setDma, Core.setPool, Core.setRequest, Core.setStage, Function.update_self]
      rw [if_pos hwrite]
      exact stagedByte_written hj
    · rw [hstage] at hst
      obtain rfl := Stage.inFlight.inj hst
      exact absurd hj (Nat.not_lt_zero j)
    · rw [hstage] at hst
      cases hst
    · rw [hreq] at hdone
      simp [hreported] at hdone
    · rw [hreq] at hbytes
      simp [hcopied] at hbytes
    · rw [hreq] at hdone
      exact absurd hcopied hdone

/-- The bytes of a command in flight, and the request's range. -/
theorem command_range (hi : Isolated e κ) (hc : Consistent e κ) {c : Command} (h : κ.stage r = .inFlight c) :
    c.operation = (κ.request r).operation ∧ ∃ k, (κ.request r).bufferIndex = some k ∧
      c.start e = (κ.request r).item.byteOffset ∧ c.length e = (κ.request r).item.physicalLength ∧
      c.moved ≤ c.length e ∧ c.buffer = (κ.pool (κ.request r).worker).buffers.getD k 0 := by
  have hfits := hc.fits r
  rw [h] at hfits
  obtain ⟨-, -, hindex, -, -, -, hop⟩ := hfits
  obtain ⟨k, hk⟩ := Option.ne_none_iff_exists'.1 hindex
  exact ⟨hop, k, hk, (hi.holds r).command c k h hk⟩

/-- A command moves bytes within its range and its buffer. -/
theorem command_isolated (hp : Pooled κ) (hi : Isolated e κ) (hc : Consistent e κ) {c c' : Command}
    (h : κ.stage r = .inFlight c)
    (hκ : κ'.stage = Function.update κ.stage r (.inFlight c') ∧ κ'.request = κ.request ∧ κ'.batch = κ.batch ∧
      κ'.pool = κ.pool)
    (hcommand : c'.start e = c.start e ∧ c'.length e = c.length e ∧ c'.buffer = c.buffer ∧ c'.moved ≤ c.length e)
    (hwrite : c.operation = .write → κ'.dma = κ.dma ∧
      ∀ a, ¬ (c.start e ≤ a ∧ a < c.start e + c.length e) → κ'.device a = κ.device a)
    (hread : c.operation = .read → κ'.device = κ.device ∧ ∃ bytes, κ'.dma =
      Function.update κ.dma (κ.request r).worker (Function.update (κ.dma (κ.request r).worker) c.buffer bytes))
    (hmoved : c'.disturbed = false → (c.disturbed = false → ∀ j < c.moved,
        κ.dma (κ.request r).worker c.buffer j = κ.device (c.start e + j)) →
      ∀ j < c'.moved, κ'.dma (κ.request r).worker c.buffer j = κ'.device (c.start e + j)) : Isolated e κ' := by
  obtain ⟨hstage, hreq, hbatch, hpool⟩ := hκ
  obtain ⟨hop, k, hk, hstart, hlength, -, hbuffer⟩ := command_range hi hc h
  have hl : (κ.stage r).Leases := by rw [h]; trivial
  have hfits := hc.fits r
  rw [h] at hfits
  obtain ⟨-, -, -, hreported, hcopied, -, -⟩ := hfits
  have hself : κ'.stage r = .inFlight c' := by rw [hstage, Function.update_self]
  refine hi.turn hc hstage (q := κ.request r) (by simp [hreq]) ⟨rfl, rfl⟩ (fun _ => by rw [hbatch])
    (by simp [h]) (fun r' hne => ?_) ?_
  · refine ⟨fun _ => by rw [hbatch], fun _ _ _ _ => by rw [hbatch], fun _ _ => by rw [hbatch],
      fun _ _ _ => by rw [hpool], fun k' hl' hk' => ?_, fun hb hv a ha => ?_⟩
    · cases hcop : c.operation with
      | write => rw [(hwrite hcop).1, Core.lent]
      | read =>
        obtain ⟨-, bytes, hdma⟩ := hread hcop
        rw [hdma]
        refine setDma_other fun hw => ?_
        rw [hbuffer]
        exact hp.buffer_ne hne hl' hl hw hk' hk
    · cases hcop : c.operation with
      | write =>
        refine (hwrite hcop).2 a fun hin => ?_
        rw [hstart, hlength] at hin
        exact range_apart hi hc hl (hop ▸ hcop) hne hb hv ha hin
      | read => rw [(hread hcop).1]
  · have hlent : ∀ k', (κ.request r).bufferIndex = some k' →
        κ'.lent r k' = κ'.dma (κ.request r).worker c.buffer := by
      intro k' hk'
      obtain rfl := Option.some.inj (hk.symm.trans hk')
      rw [Core.lent, hreq, hpool, hbuffer]
    refine ⟨fun c1 k' hst hk' => ?_, fun c1 k' hst hk' hw j hj => ?_,
      fun c1 k' hst hk' hclean j hj => ?_, fun k' hst => ?_, fun _ hdone => ?_, fun _ _ bytes hbytes => ?_,
      fun _ _ hdone => ?_⟩
    · obtain rfl := Stage.inFlight.inj (hself.symm.trans hst)
      rw [hreq] at hk' ⊢
      obtain rfl := Option.some.inj (hk.symm.trans hk')
      rw [hpool, hcommand.1, hcommand.2.1, hcommand.2.2.1]
      exact ⟨hstart, hlength, hcommand.2.2.2, hbuffer⟩
    · rw [hreq] at hk' hw hj ⊢
      rw [hlent k' hk', hbatch, (hwrite (hop.trans hw)).1]
      have hst' := (hi.holds r).staged c k' h hk' hw j hj
      obtain rfl := Option.some.inj (hk.symm.trans hk')
      rwa [Core.lent, ← hbuffer] at hst'
    · obtain rfl := Stage.inFlight.inj (hself.symm.trans hst)
      rw [hreq] at hk' ⊢
      rw [hlent k' hk', ← hstart]
      refine hmoved hclean (fun hclean' j hj => ?_) j hj
      rw [hstart, hbuffer]
      exact (hi.holds r).moved c k h hk hclean' j hj
    · rw [hself] at hst
      cases hst
    · rw [hreq, hreported] at hdone
      cases hdone
    · rw [hreq, hcopied] at hbytes
      cases hbytes
    · rw [hreq] at hdone
      exact absurd hcopied hdone

theorem transfer_isolated (hp : Pooled κ) (hi : Isolated e κ) (hc : Consistent e κ) {c : Command} {n : Nat}
    (h : κ.stage r = .inFlight c) (hop : c.operation = .write) (hle : c.moved + n ≤ c.length e) :
    Isolated e { κ.setStage r (.inFlight { c with moved := c.moved + n }) with
      device := fun a => if c.start e + c.moved ≤ a ∧ a < c.start e + c.moved + n then
        κ.dma (κ.request r).worker c.buffer (a - c.start e) else κ.device a } := by
  refine command_isolated hp hi hc h ⟨rfl, rfl, rfl, rfl⟩ ⟨rfl, rfl, rfl, hle⟩ (fun _ => ⟨rfl, fun a ha => ?_⟩)
    (fun hread => ?_) fun hclean hold j hj => ?_
  · exact if_neg fun hin => ha ⟨by omega, by omega⟩
  · rw [hop] at hread
    cases hread
  · simp only at hj
    by_cases hlt : j < c.moved
    · simp only
      rw [if_neg (by omega)]
      exact hold hclean j hlt
    · simp only
      rw [if_pos ⟨by omega, by omega⟩, Nat.add_sub_cancel_left]
      rfl

theorem fetch_isolated (hp : Pooled κ) (hi : Isolated e κ) (hc : Consistent e κ) {c : Command} {n : Nat}
    (h : κ.stage r = .inFlight c) (hop : c.operation = .read) (hle : c.moved + n ≤ c.length e) :
    Isolated e ((κ.setStage r (.inFlight { c with moved := c.moved + n })).setDma (κ.request r).worker c.buffer
      fun j => if c.moved ≤ j ∧ j < c.moved + n then κ.device (c.start e + j)
        else κ.dma (κ.request r).worker c.buffer j) := by
  refine command_isolated hp hi hc h ⟨rfl, rfl, rfl, rfl⟩ ⟨rfl, rfl, rfl, hle⟩ (fun hwrite => ?_)
    (fun _ => ⟨rfl, _, rfl⟩) fun hclean hold j hj => ?_
  · rw [hop] at hwrite
    cases hwrite
  · simp only at hj
    simp only [Core.setDma, Core.setStage, Function.update_self]
    by_cases hlt : j < c.moved
    · rw [if_neg (by omega)]
      exact hold hclean j hlt
    · rw [if_pos ⟨by omega, hj⟩]

/-- What a command that will fail leaves is in its range, or in its buffer. -/
theorem disturb_isolated (hp : Pooled κ) (hi : Isolated e κ) (hc : Consistent e κ) {c : Command} {noise : Nat → UInt8}
    (h : κ.stage r = .inFlight c) (hop : c.operation = .write) :
    Isolated e { κ.setStage r (.inFlight { c with disturbed := true }) with
      device := fun a => if c.start e ≤ a ∧ a < c.start e + c.length e then noise a else κ.device a } := by
  obtain ⟨-, -, -, -, -, hmoved, -⟩ := command_range hi hc h
  refine command_isolated hp hi hc h ⟨rfl, rfl, rfl, rfl⟩ ⟨rfl, rfl, rfl, hmoved⟩ (fun _ => ⟨rfl, fun a ha => if_neg ha⟩)
    (fun hread => ?_) (fun hclean => nomatch hclean)
  rw [hop] at hread
  cases hread

theorem spoil_isolated (hp : Pooled κ) (hi : Isolated e κ) (hc : Consistent e κ) {c : Command} {noise : Nat → UInt8}
    (h : κ.stage r = .inFlight c) (hop : c.operation = .read) :
    Isolated e ((κ.setStage r (.inFlight { c with disturbed := true })).setDma (κ.request r).worker c.buffer
      fun j => if j < c.length e then noise j else κ.dma (κ.request r).worker c.buffer j) := by
  obtain ⟨-, -, -, -, -, hmoved, -⟩ := command_range hi hc h
  refine command_isolated hp hi hc h ⟨rfl, rfl, rfl, rfl⟩ ⟨rfl, rfl, rfl, hmoved⟩ (fun hwrite => ?_)
    (fun _ => ⟨rfl, _, rfl⟩) (fun hclean => nomatch hclean)
  rw [hop] at hwrite
  cases hwrite

/-- SPDK calls back: a success has moved all its bytes. -/
theorem report_isolated (hi : Isolated e κ) (hc : Consistent e κ) {c : Command} {success : Bool}
    (h : κ.stage r = .inFlight c) (hs : success = true → c.moved = c.length e ∧ c.disturbed = false) :
    Isolated e ((κ.setStage r (.reported success)).setRequest r
      { κ.request r with reported := some success }) := by
  obtain ⟨hop, k, hk, hstart, hlength, -, -⟩ := command_range hi hc h
  have hfits := hc.fits r
  rw [h] at hfits
  obtain ⟨-, -, -, -, hcopied, -, -⟩ := hfits
  have hall : success = true → ∀ j < (κ.request r).item.physicalLength,
      κ.lent r k j = κ.device ((κ.request r).item.byteOffset + j) := by
    intro hsuccess j hj
    obtain ⟨hmoved, hclean⟩ := hs hsuccess
    exact (hi.holds r).moved c k h hk hclean j (by omega)
  refine hi.turn hc rfl rfl ⟨rfl, rfl⟩ (fun _ => rfl) (by simp [h]) (fun r' _ => .same rfl rfl rfl rfl rfl) ?_
  · have hstage : ((κ.setStage r (.reported success)).setRequest r
        { κ.request r with reported := some success }).stage r = .reported success := by simp
    have hreq : ((κ.setStage r (.reported success)).setRequest r
        { κ.request r with reported := some success }).request r = { κ.request r with reported := some success } := by
      simp
    refine ⟨fun c1 k' hst => ?_, fun c1 k' hst => ?_, fun c1 k' hst => ?_,
      fun k' hst hk' _ j hj => ?_, fun _ hdone hwrite _ j hj => ?_, fun _ _ bytes hbytes => ?_, fun _ _ hdone => ?_⟩
    · rw [hstage] at hst
      cases hst
    · rw [hstage] at hst
      cases hst
    · rw [hstage] at hst
      cases hst
    · rw [hreq] at hk' hj
      obtain rfl := Option.some.inj (hk.symm.trans hk')
      rw [hstage] at hst
      rw [Core.lent, hreq]
      exact hall (Stage.reported.inj hst) j hj
    · rw [hreq] at hdone hwrite hj
      rw [hreq]
      show κ.device _ = _
      rw [← hall (Option.some.inj hdone) j hj]
      exact (hi.holds r).staged c k h hk hwrite j hj
    · rw [hreq] at hbytes
      simp [hcopied] at hbytes
    · rw [hreq] at hdone
      exact absurd hcopied hdone

/-- The lease is given back, and what a read has fetched is in its caller's memory. -/
theorem release_isolated (hp : Pooled κ) (hi : Isolated e κ) (hc : Consistent e κ) {success success' : Bool} {k : Nat}
    (copied : Option Bytes) (memory : Nat → Nat → UInt8) (h : κ.stage r = .reported success)
    (hk : (κ.request r).bufferIndex = some k)
    (hκ : κ'.stage = Function.update κ.stage r (.closing success') ∧
      κ'.request = Function.update κ.request r { κ.request r with bufferIndex := none, copied } ∧
      κ'.batch = Function.update κ.batch r.1 { κ.batch r.1 with memory } ∧
      κ'.pool = Function.update κ.pool (κ.request r).worker
        (poolAfterRelease (κ.pool (κ.request r).worker) (some k)) ∧
      κ'.dma = κ.dma ∧ κ'.device = κ.device)
    (hwrite : (κ.request r).operation = .write → memory = (κ.batch r.1).memory)
    (hother : ∀ buffer a, ¬ CallerBytes (κ.request r).item buffer a → memory buffer a = (κ.batch r.1).memory buffer a)
    (hput : ∀ bytes, copied = some bytes → bytes = deviceBytes κ.device (κ.request r).item ∧
      ∀ p, (κ.request r).item.buffer = some p → ∀ j < (κ.request r).item.logicalLength,
        memory p.buffer (p.offset + j) = κ.device ((κ.request r).item.byteOffset + j)) : Isolated e κ' := by
  obtain ⟨hstage, hreq, hbatch, hpool, hdma, hdevice⟩ := hκ
  have hl : (κ.stage r).Leases := by rw [h]; trivial
  have hafter : poolAfterRelease (κ.pool (κ.request r).worker) (some k) =
      { κ.pool (κ.request r).worker with
        inUse := (κ.pool (κ.request r).worker).inUse.set k false
        freeIndexes := k :: (κ.pool (κ.request r).worker).freeIndexes } := by
    rw [poolAfterRelease, SpdkBufferPool.release_leased (hp.pool _).1 (hp.lease r k hl hk)]
  have hitem : (κ.batch r.1).items[r.2]? = some (κ.request r).item := by
    have hlt : r.2 < (κ.batch r.1).items.length := by
      rw [← Nat.not_le, ← hc.absent_iff, h]
      simp
    rw [(hc.built r.1 r.2 _ (List.getElem?_eq_getElem hlt)).1, List.getElem?_eq_getElem hlt]
  have hsame : ∀ b, (κ'.batch b).items = (κ.batch b).items ∧ (κ'.batch b).caller = (κ.batch b).caller := by
    intro b
    rw [hbatch]
    rcases eq_or_ne b r.1 with rfl | hb
    · simp
    · simp [hb]
  refine hi.turn hc hstage hreq ⟨rfl, rfl⟩ (fun b => (hsame b).2) (by simp [h]) (fun r' hne => ?_) ?_
  · refine ⟨fun _ => (hsame r'.1).1, fun _ buffer a hown => ?_, fun habsent hw => ?_, fun k' _ _ => ?_,
      fun _ _ _ => by rw [hdma]; rfl, fun _ _ _ _ => by rw [hdevice]⟩
    · rw [hbatch]
      rcases eq_or_ne r'.1 r.1 with hb | hb
      · rw [hb] at hown ⊢
        rw [Function.update_self]
        refine hother buffer a (hown r.2 _ (fun hij => hne (Prod.ext hb hij.symm)) hitem)
      · rw [Function.update_of_ne hb]
    · rw [hbatch]
      rcases eq_or_ne r'.1 r.1 with hb | hb
      · rw [hb, Function.update_self]
        refine hwrite ?_
        rw [(built_ok hc (r := r) (by simp [h])).2.2, ← hb, ← (built_ok hc habsent).2.2]
        exact hw
      · rw [Function.update_of_ne hb]
    · rw [hpool, hafter]
      rcases eq_or_ne (κ.request r').worker (κ.request r).worker with hw | hw
      · simp [hw]
      · simp [hw]
  · have hself : κ'.stage r = .closing success' := by rw [hstage, Function.update_self]
    have hreqr : κ'.request r = { κ.request r with bufferIndex := none, copied } := by rw [hreq, Function.update_self]
    have hbatchr : κ'.batch r.1 = { κ.batch r.1 with memory } := by rw [hbatch, Function.update_self]
    have hno : ¬ (κ'.stage r).Leases := by
      rw [hself]
      exact id
    refine ⟨fun _ _ hst => absurd (by rw [hst]; trivial) hno,
      fun _ _ hst => absurd (by rw [hst]; trivial) hno, fun _ _ hst => absurd (by rw [hst]; trivial) hno,
      fun _ hst => absurd (by rw [hst]; trivial) hno, fun _ hdone hw hv j hj => ?_, fun _ _ bytes hbytes => ?_,
      fun _ _ hdone p hp j hj _ => ?_⟩
    · rw [hreqr] at hdone hw hj ⊢
      rw [hbatchr] at hv ⊢
      rw [hdevice, hwrite hw]
      exact (hi.holds r).written (by simp [h]) hdone hw hv j hj
    · rw [hreqr] at hbytes ⊢
      rw [hdevice]
      exact (hput bytes hbytes).1
    · rw [hreqr] at hdone hp hj ⊢
      obtain ⟨bytes, hbytes⟩ := Option.ne_none_iff_exists'.1 hdone
      rw [hbatchr, hdevice]
      exact (hput bytes hbytes).2 p hp j hj

theorem deliver_isolated (hp : Pooled κ) (hi : Isolated e κ) (hc : Consistent e κ) {k : Nat} (h : κ.stage r = .reported true)
    (hop : (κ.request r).operation = .read) (hk : (κ.request r).bufferIndex = some k) :
    Isolated e ((κ.copy r k).finish r true) := by
  have hlogical := (built_ok (r := r) hc (by simp [h])).2.1.logical_le
  have hlength : (κ.stagedBytes r k).length = (κ.request r).item.logicalLength := by simp [Core.stagedBytes]
  have hbytes : κ.stagedBytes r k = deviceBytes κ.device (κ.request r).item := by
    refine List.map_congr_left fun j hj => ?_
    exact (hi.holds r).read k h hk hop j (Nat.lt_of_lt_of_le (List.mem_range.1 hj) hlogical)
  refine release_isolated hp hi hc (some (κ.stagedBytes r k)) _ h hk
    ⟨rfl, ?_, rfl, ?_, rfl, rfl⟩ (fun hwrite => ?_) (fun buffer a ha => copyToCaller_other hlength ha)
    fun bytes heq => ?_
  · simp [Core.copy, Core.finish]
  · simp [Core.copy, Core.finish, hk]
  · rw [hop] at hwrite
    cases hwrite
  · obtain rfl := Option.some.inj heq
    refine ⟨hbytes, fun p hp j hj => ?_⟩
    rw [copyToCaller_own hp (by omega), hbytes]
    simp [deviceBytes, hj]

theorem finish_isolated (hp : Pooled κ) (hi : Isolated e κ) (hc : Consistent e κ) {success success' : Bool}
    (h : κ.stage r = .reported success) : Isolated e (κ.finish r success') := by
  have hfits := hc.fits r
  rw [h] at hfits
  obtain ⟨-, -, hindex, -, hcopied⟩ := hfits
  obtain ⟨k, hk⟩ := Option.ne_none_iff_exists'.1 hindex
  refine release_isolated hp hi hc none (κ.batch r.1).memory h hk
    ⟨rfl, ?_, ?_, ?_, rfl, rfl⟩ (fun _ => rfl) (fun _ _ _ => rfl) (fun _ heq => nomatch heq)
  · rw [← hcopied]
    rfl
  · simp [Core.finish]
  · simp [Core.finish, hk]

/-- A request without a buffer goes to another stage without one. -/
theorem close_isolated (hi : Isolated e κ) (hc : Consistent e κ) {t : Stage} (hbuilt : κ.stage r ≠ .absent)
    (ht : ¬ t.Leases) {q : IoRequest} {x : IoBatchRequest}
    (hq : q.operation = (κ.request r).operation ∧ q.item = (κ.request r).item ∧
      q.reported = (κ.request r).reported ∧ q.copied = (κ.request r).copied)
    (hx : x.items = (κ.batch r.1).items ∧ x.memory = (κ.batch r.1).memory ∧ x.caller = (κ.batch r.1).caller)
    (hκ : κ'.stage = Function.update κ.stage r t ∧ κ'.request = Function.update κ.request r q ∧
      κ'.batch = Function.update κ.batch r.1 x ∧ κ'.pool = κ.pool ∧ κ'.dma = κ.dma ∧ κ'.device = κ.device) :
    Isolated e κ' := by
  obtain ⟨hstage, hreq, hbatch, hpool, hdma, hdevice⟩ := hκ
  have hsame : ∀ b, (κ'.batch b).items = (κ.batch b).items ∧ (κ'.batch b).memory = (κ.batch b).memory ∧
      (κ'.batch b).caller = (κ.batch b).caller := by
    intro b
    rw [hbatch]
    rcases eq_or_ne b r.1 with rfl | hb
    · simpa using hx
    · simp [hb]
  have hself : κ'.stage r = t := by rw [hstage, Function.update_self]
  have hreqr : κ'.request r = q := by rw [hreq, Function.update_self]
  have hno : ¬ (κ'.stage r).Leases := hself ▸ ht
  refine hi.turn hc hstage hreq ⟨hq.1, hq.2.1⟩ (fun b => (hsame b).2.2) hbuilt
    (fun r' _ => .same (hsame r'.1).1 (hsame r'.1).2.1 hpool hdma hdevice) ?_
  refine ⟨fun _ _ hst => absurd (by rw [hst]; trivial) hno,
    fun _ _ hst => absurd (by rw [hst]; trivial) hno, fun _ _ hst => absurd (by rw [hst]; trivial) hno,
    fun _ hst => absurd (by rw [hst]; trivial) hno, fun _ hdone hw hv j hj => ?_, fun _ hv bytes hbytes => ?_,
    fun _ hv hdone p hp j hj hown => ?_⟩
  · rw [hreqr] at hdone hw hj ⊢
    rw [hq.2.1] at hj ⊢
    rw [(hsame r.1).2.2] at hv
    rw [hdevice, (hsame r.1).2.1]
    exact (hi.holds r).written hbuilt (hq.2.2.1 ▸ hdone) (hq.1 ▸ hw) hv j hj
  · rw [hreqr] at hbytes ⊢
    rw [(hsame r.1).2.2] at hv
    rw [hdevice, hq.2.1]
    exact (hi.holds r).copied hbuilt hv bytes (hq.2.2.2 ▸ hbytes)
  · rw [hreqr] at hdone hp hj ⊢
    rw [hq.2.1] at hp hj ⊢
    rw [(hsame r.1).2.2] at hv
    rw [(hsame r.1).1] at hown
    rw [hdevice, (hsame r.1).2.1]
    exact (hi.holds r).put hbuilt hv (hq.2.2.2 ▸ hdone) p hp j hj hown

/-! ## Runs -/

/-- One move keeps the requests apart, if it marks no released pool and no overlap. -/
theorem isolated_move (hg : e.geometry.Valid) (hp : Pooled κ) (hi : Isolated e κ) (hc : Consistent e κ) (hm : Move e κ κ')
    (hmarks : ¬ κ'.marks .released ∧ ¬ κ'.marks .clashed) : Isolated e κ' := by
  cases hm with
  | submit b op items memory pc req hnew _ _ _ _ hreq =>
    have hoverlap : NoOverlap κ.batch op items := by
      by_contra hno
      exact hmarks.2 (.inr ⟨rfl, hno⟩)
    exact submit_isolated hi hc hnew hreq hoverlap
  | post rs hrs => exact post_isolated hi hc hrs
  | note r q hq => exact note_isolated hi hc hq
  | scribble w buffer bytes hfree => exact scribble_isolated hp hi hc hfree
  | accept r k free hr _ hfree => exact accept_isolated hg hp hi hc hr hfree
  | transferWrite r c n hr hop hle => exact transfer_isolated hp hi hc hr hop hle
  | transferRead r c n hr hop hle => exact fetch_isolated hp hi hc hr hop hle
  | disturbWrite r c noise hr hop => exact disturb_isolated hp hi hc hr hop
  | disturbRead r c noise hr hop => exact spoil_isolated hp hi hc hr hop
  | report r c success hr hs => exact report_isolated hi hc hr hs
  | deliver r k hr hop hk _ => exact deliver_isolated hp hi hc hr hop hk
  | finish r success success' hr _ => exact finish_isolated hp hi hc hr
  | abandon r hr =>
    refine close_isolated (t := .closing false) (q := κ.request r) (x := κ.batch r.1) hi hc ?_ id
      ⟨rfl, rfl, rfl, rfl⟩ ⟨rfl, rfl, rfl⟩ ⟨rfl, by simp, by simp, rfl, rfl, rfl⟩
    rcases hr with hr | hr <;> simp [hr]
  | complete r success error hr =>
    exact close_isolated (t := .completed)
      (q := { κ.request r with completions := (κ.request r).completions + 1, completed := true })
      (x := { κ.batch r.1 with
        results := (κ.batch r.1).results.set (κ.request r).resultIndex ⟨success, error⟩
        remaining := sub64 (κ.batch r.1).remaining 1 }) hi hc (by simp [hr]) id
      ⟨rfl, rfl, rfl, rfl⟩ ⟨rfl, rfl, rfl⟩ ⟨rfl, rfl, rfl, rfl, rfl, rfl⟩
  | caller b pc hpc => exact caller_isolated hi hc hpc
  | fillPool w bufferSize bufferAlignment buffers hini _ => exact fillPool_isolated hp hi hc hini
  | releasePool w => exact absurd (.inr ⟨rfl, trivial⟩) hmarks.1

theorem isolated_moves (hg : e.geometry.Valid) (hp : Pooled κ) (hi : Isolated e κ) (hc : Consistent e κ) (hm : Moves e κ κ')
    (hmarks : ¬ κ'.marks .released ∧ ¬ κ'.marks .clashed) : Isolated e κ' := by
  induction hm with
  | refl => exact hi
  | tail hm hlast ih =>
    have hclean := And.intro (fun h => hmarks.1 (marks_grow hlast h)) fun h => hmarks.2 (marks_grow hlast h)
    exact isolated_move hg (moves_pooled hp hc hm hclean.1) (ih hclean) (moves_consistent hc hm) hlast hmarks

theorem init_isolated (device : Nat → UInt8) : Isolated e (Core.init device) where
  apart _ _ _ hb := absurd rfl hb
  holds _ := .idle id (fun hb => absurd rfl hb) fun hb => absurd rfl hb

/-- Submissions do not overlap: what the callers of concurrent batches promise. -/
def Disjoint (s : Sys) : Action → Prop
  | .submit operation items _ => NoOverlap s.batch operation items
  | _ => True

/-- **Data isolation**: in every run of batches that do not overlap, as long as no shutdown has started, for any
number of workers, buffers and any interleaving, no two requests of a worker hold the same buffer index; until
its batch returns, a write SPDK reported successful has left its logical bytes and zeros in its range; and a
read with a successful result has copied the logical bytes of its range to its caller, who has each of them
unless another item of the batch covers it. -/
theorem data_isolation {nb bs wu ba seg mx bc : Nat} {device : Nat → UInt8} {as : List Action} {s : Sys}
    (hgeometry : buildStorageGeometry nb bs wu ba seg mx bc = .ok e.geometry)
    (hdisjoint : Guarded (step e) Disjoint (Sys.init device) as)
    (h : runFrom (step e) (Sys.init device) as = some s) (hcalm : s.ctx.shutdownStarted = false) :
    (∀ b i b' i' k, i < (s.batch b).items.length → i' < (s.batch b').items.length →
      (s.request (b, i)).worker = (s.request (b', i')).worker → (s.request (b, i)).bufferIndex = some k →
      (s.request (b', i')).bufferIndex = some k → (b, i) = (b', i')) ∧
    ∀ b i it, (s.batch b).caller.Live → (s.batch b).items[i]? = some it →
      ((s.batch b).operation = .write → (s.request (b, i)).reported = some true → ∀ j < it.physicalLength,
        s.device (it.byteOffset + j) = writtenByte (s.batch b).memory it j) ∧
      ((s.batch b).operation = .read → (s.request (b, i)).completed = true →
        (∃ x, (s.batch b).results[i]? = some x ∧ x.success = true) →
        (s.request (b, i)).copied = some (deviceBytes s.device it) ∧
        ∀ p, it.buffer = some p → ∀ j < it.logicalLength, Unshared (s.batch b).items i p.buffer (p.offset + j) →
          (s.batch b).memory p.buffer (p.offset + j) = s.device (it.byteOffset + j)) := by
  have hg := buildStorageGeometry_valid hgeometry
  have hmarks : ∀ s a m, Disjoint s a → stepMarks s a m → m = .released ∨ (m ≠ .released ∧ m ≠ .clashed) := by
    intro s a m hok hm
    cases a with
    | reactor w c => exact .inl hm.1
    | caller b c => exact .inr ⟨by rw [hm]; nofun, by rw [hm]; nofun⟩
    | submit operation items memory => exact absurd hok hm.2
    | owner c => exact hm.elim
    | transfer w k n => exact hm.elim
    | disturb w k noise => exact hm.elim
    | runtimeStops => exact hm.elim
  obtain ⟨κ, hquiet⟩ := calm_follows hmarks hdisjoint h hcalm
  have hp := hquiet.pooled fun hr => hr.1 rfl
  obtain ⟨hm, ht, hc, hκ⟩ := hquiet
  have hi := isolated_moves hg (init_pooled device) (init_isolated device) (init_consistent e device) hm
    ⟨fun hr => (hκ _ hr).1 rfl, fun hr => (hκ _ hr).2 rfl⟩
  have hbuilt : ∀ b i, i < (s.batch b).items.length → κ.stage (b, i) ≠ .absent := by
    intro b i hlt hst
    rw [hc.absent_iff, ht.batch] at hst
    exact Nat.not_le.2 hlt hst
  -- a request with a buffer index is one that leases it
  have hleases : ∀ b i k, i < (s.batch b).items.length → (s.request (b, i)).bufferIndex = some k →
      (κ.stage (b, i)).Leases := by
    intro b i k hlt hk
    have hfits := hc.fits (b, i)
    rw [ht.request] at hfits
    have hpresent := hbuilt b i hlt
    cases hst : κ.stage (b, i) <;> simp_all [Stage.Fits, Stage.Leases]
  refine ⟨fun b i b' i' k hlt hlt' hw hk hk' => ?_, fun b i it hlive hit => ?_⟩
  · exact hp.alone _ _ k (hleases b i k hlt hk) (hleases b' i' k hlt' hk') (by rw [ht.request]; exact hw)
      (by rw [ht.request]; exact hk) (by rw [ht.request]; exact hk')
  · have hpresent := hbuilt b i (List.getElem?_eq_some_iff.1 hit).1
    obtain ⟨hitem, -, hop⟩ := hc.built b i it (by rw [ht.batch]; exact hit)
    have hholds := hi.holds (b, i)
    refine ⟨fun hwrite hdone j hj => ?_, fun hread hdone hsuccess => ?_⟩
    · have hw := hholds.written hpresent (by rw [ht.request]; exact hdone) (by rw [hop, ht.batch]; exact hwrite)
        (by rw [ht.batch]; exact hlive) j (by rw [hitem]; exact hj)
      rwa [hitem, ht.device, ht.batch] at hw
    · obtain ⟨x, hx, hsucc⟩ := hsuccess
      have hst := (completed_iff (i := i) hc (by rw [ht.batch]; exact (List.getElem?_eq_some_iff.1 hit).1)).1
        (by rw [ht.request]; exact hdone)
      obtain ⟨x', hx', hsucceeded⟩ := hc.result b i hst
      rw [ht.batch] at hx'
      obtain rfl := Option.some.inj (hx.symm.trans hx')
      have hcopied := (hsucceeded.1 hsucc).2 (by rw [hop, ht.batch]; exact hread)
      obtain ⟨bytes, hbytes⟩ := Option.ne_none_iff_exists'.1 hcopied
      refine ⟨?_, fun p hp j hj hown => ?_⟩
      · have heq := hholds.copied hpresent (by rw [ht.batch]; exact hlive) bytes hbytes
        rw [hitem, ht.device] at heq
        rw [← ht.request, hbytes, heq]
      · have hput := hholds.put hpresent (by rw [ht.batch]; exact hlive) hcopied p (by rw [hitem]; exact hp) j
          (by rw [hitem]; exact hj) (by rw [ht.batch]; exact hown)
        rwa [hitem, ht.device, ht.batch] at hput

instance (op op' : Operation) (it it' : IoBatchItem) : Decidable (Conflict op op' it it') :=
  decidable_of_iff ((op = .write ∨ op' = .write) ∧ max it.byteOffset it'.byteOffset <
      min (it.byteOffset + it.physicalLength) (it'.byteOffset + it'.physicalLength)) <| by
    refine and_congr_right fun _ => ⟨fun h => ⟨max it.byteOffset it'.byteOffset, ?_, ?_⟩, ?_⟩
    · unfold ItemBytes
      omega
    · unfold ItemBytes
      omega
    · rintro ⟨a, h, h'⟩
      unfold ItemBytes at h h'
      omega

/-- `Disjoint`, asked of the batches there are. -/
def DisjointKnown (s : Sys) : Action → Prop
  | .submit operation items _ =>
    (∀ i j : Fin items.length, i ≠ j → ¬ Conflict operation operation (items.get i) (items.get j)) ∧
    ∀ b < s.batches, ∀ it ∈ items, ∀ it' ∈ (s.batch b).items, ¬ Conflict operation (s.batch b).operation it it'
  | _ => True

instance (s : Sys) : ∀ a, Decidable (DisjointKnown s a)
  | .submit operation items _ => inferInstanceAs (Decidable
    ((∀ i j : Fin items.length, i ≠ j → ¬ Conflict operation operation (items.get i) (items.get j)) ∧
      ∀ b < s.batches, ∀ it ∈ items, ∀ it' ∈ (s.batch b).items, ¬ Conflict operation (s.batch b).operation it it'))
  | .reactor _ _ | .caller _ _ | .owner _ | .transfer _ _ _ | .disturb _ _ _ | .runtimeStops => isTrue trivial

theorem disjoint_known {s : Sys} {a : Action} (hfresh : ∀ b, s.batches ≤ b → (s.batch b).caller = .absent)
    (h : DisjointKnown s a) : Disjoint s a := by
  cases a with
  | submit operation items memory =>
    refine ⟨fun i j it it' hi hj hne => ?_, fun b it it' hlive hit hit' => h.2 b ?_ it hit it' hit'⟩
    · obtain ⟨hlt, rfl⟩ := List.getElem?_eq_some_iff.1 hi
      obtain ⟨hlt', rfl⟩ := List.getElem?_eq_some_iff.1 hj
      exact h.1 ⟨i, hlt⟩ ⟨j, hlt'⟩ fun heq => hne (Fin.mk.inj heq)
    · rw [← Nat.not_le]
      exact fun hle => hlive.1 (hfresh b hle)
  | _ => trivial

theorem guarded_known {device : Nat → UInt8} {as : List Action}
    (h : Guarded (step e) DisjointKnown (Sys.init device) as) : Guarded (step e) Disjoint (Sys.init device) as := by
  refine Guarded.under (I := fun s => ∃ κ, Tracks s κ ∧ Consistent e κ) ?_ ?_
    ⟨_, init_tracks device, init_consistent e device⟩ h
  · rintro s a s' ⟨κ, ht, hc⟩ hs
    obtain ⟨κ', hm, ht', -⟩ := step_follows ht hc hs
    exact ⟨κ', ht', moves_consistent hc hm⟩
  · rintro s a ⟨κ, ht, -⟩ ha
    exact disjoint_known ht.tidy.fresh ha

/-- When all is served, the read has copied its second page, and the written byte is on the bdev, zero-padded. -/
theorem data_isolation_pair : ∃ s, runFrom (step smallEnv) (Sys.init Nat.toUInt8) pairServed = some s ∧
    (s.request (0, 1)).copied = some (deviceBytes s.device ⟨some ⟨0, 2⟩, 1, 2, 2⟩) ∧
    ∀ j < 2, s.device (4 + j) = writtenByte (s.batch 1).memory ⟨some ⟨0, 5⟩, 1, 4, 2⟩ j := by
  have hend : (runFrom (step smallEnv) (Sys.init Nat.toUInt8) pairServed).any (fun s =>
      decide (s.ctx.shutdownStarted = false ∧ ((s.batch 0).caller = .waiting ∧ (s.batch 1).caller = .waiting) ∧
        ((s.batch 0).operation = .read ∧ (s.batch 0).items[1]? = some ⟨some ⟨0, 2⟩, 1, 2, 2⟩ ∧
          (s.request (0, 1)).completed = true ∧ (s.batch 0).results[1]?.map IoResult.success = some true) ∧
        (s.batch 1).operation = .write ∧ (s.batch 1).items[0]? = some ⟨some ⟨0, 5⟩, 1, 4, 2⟩ ∧
          (s.request (1, 0)).reported = some true)) = true := by decide +kernel
  obtain ⟨s, hrun, hs⟩ := (Option.any_eq_true _ _).1 hend
  obtain ⟨hcalm, ⟨hlive0, hlive1⟩, ⟨hread, hitem0, hcompleted, hresult⟩, hwrite, hitem1, hreported⟩ :=
    of_decide_eq_true hs
  have hdisjoint : Guarded (step smallEnv) Disjoint (Sys.init Nat.toUInt8) pairServed :=
    guarded_known (by decide +kernel)
  have hgeometry : buildStorageGeometry 4 2 1 1 4 0 1 = .ok smallEnv.geometry := rfl
  obtain ⟨-, hdata⟩ := data_isolation hgeometry hdisjoint hrun hcalm
  obtain ⟨x, hx, hsuccess⟩ := Option.map_eq_some_iff.1 hresult
  refine ⟨s, hrun, ?_, ?_⟩
  · exact ((hdata 0 1 _ (by simp [hlive0, CallerPc.Live]) hitem0).2 hread hcompleted ⟨x, hx, hsuccess⟩).1
  · exact (hdata 1 0 _ (by simp [hlive1, CallerPc.Live]) hitem1).1 hwrite hreported

end SpdkBdevContext
end SpdkConnector
