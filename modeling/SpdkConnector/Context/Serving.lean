import SpdkConnector.Context.Answers
import SpdkConnector.Connector.Transfers

/-!
# A batch call as the connector's program

The connector is written against `submit_batch_and_wait` as a program over one device (`submitBatchAndWait`). A
call that returns from the context with its bytes moved (`Delivers`) is a run of that program alone on the device
(`Serves`): its segments one after the other in the order of the items, with the results it returns.

| here | there |
| --- | --- |
| `BatchCall`, `BatchReturn` | the arguments and the results of `submit_batch_and_wait` (:677-750) |
| `Serves` | the same call as the connector's program |
-/

namespace SpdkConnector
namespace SpdkBdevContext

open Interleaving

/-! ## The program on its own -/

section
variable {g : StorageGeometry} {t : Nat} {s : Shared}

/-- A bdev of geometry `g` that serves batch calls: an operation, its items and the caller's buffers. -/
def batchDevice (g : StorageGeometry) :
    Machine Shared (Operation × List IoBatchItem × List Bytes) Cmd Answer Exn (List IoResult × List Bytes)
      SpdkConnector.Choice where
  exec := exec g
  body call := submitBatchAndWait g call.1 call.2.1 call.2.2

/-- The choices that give these results; a write that fails leaves what `device` has. -/
def choicesFor (results : List IoResult) (device : Nat → UInt8) (n : Nat) : SpdkConnector.Choice :=
  let x := results.getD (n / 2 - 1) ⟨false, ""⟩
  { success := x.success, error := x.error, noise := device }

/-- `device` in the blocks of the items, `old` elsewhere. -/
def overlay (g : StorageGeometry) (items : List IoBatchItem) (device old : Nat → UInt8) : Nat → UInt8 := fun a =>
  if ∃ it ∈ items, InBlocks g it a then device a else old a

theorem overlay_cons (it : IoBatchItem) (items : List IoBatchItem) (device old : Nat → UInt8) :
    overlay g items device (fun a => if InBlocks g it a then device a else old a) =
      overlay g (it :: items) device old := by
  ext a
  simp only [overlay, List.mem_cons, exists_eq_or_imp]
  by_cases h : InBlocks g it a <;> by_cases h' : ∃ it ∈ items, InBlocks g it a <;> simp [h, h']

theorem run_write {choose : Nat → SpdkConnector.Choice} {m n i : Nat} {it : IoBatchItem}
    {rest : List (IoBatchItem × Nat)} {results : List IoResult} {bufs : List Bytes} (hi : (choose m).index = 0) :
    Prog.run (batchDevice g) t choose (runSegments .write (n + 1) ((it, i) :: rest) results bufs) m s =
      Prog.run (batchDevice g) t choose
        (runSegments .write n rest (results.set i (ioResult (choose (m + 1)))) bufs) (m + 2)
        { s with dev := writeBlocks g it (stage bufs it) (choose (m + 1)).success (choose (m + 1)).noise s.dev } := by
  simp [runSegments, Prog.run, perform, Prog.perform, bind, Prog.bind, batchDevice, exec, hi]

theorem run_read {choose : Nat → SpdkConnector.Choice} {m n i : Nat} {it : IoBatchItem}
    {rest : List (IoBatchItem × Nat)} {results : List IoResult} {bufs : List Bytes} (hi : (choose m).index = 0) :
    Prog.run (batchDevice g) t choose (runSegments .read (n + 1) ((it, i) :: rest) results bufs) m s =
      Prog.run (batchDevice g) t choose
        (runSegments .read n rest (results.set i (ioResult (choose (m + 1))))
          (if (choose (m + 1)).success then copyOut bufs it (readBlocks g it s.dev) else bufs)) (m + 2) s := by
  simp [runSegments, Prog.run, perform, Prog.perform, bind, Prog.bind, batchDevice, exec, hi, ioResult]

theorem choicesFor_at {results : List IoResult} (device : Nat → UInt8) {i : Nat} {x : IoResult}
    (h : results[i]? = some x) (hplain : x.success = true → x.error = "") :
    (choicesFor results device (2 * i + 1 + 1)).success = x.success ∧
    ioResult (choicesFor results device (2 * i + 1 + 1)) = x := by
  have hi : (2 * i + 1 + 1) / 2 - 1 = i := by omega
  have hget : results.getD i ⟨false, ""⟩ = x := by simp [List.getD_eq_getElem?_getD, h]
  obtain ⟨success, error⟩ := x
  simp only [choicesFor, hi, hget, ioResult, true_and]
  cases success
  · rfl
  · have herror : error = "" := hplain rfl
    simp [herror]

/-- Filling in the next result. -/
theorem take_set {results rs : List IoResult} {i : Nat} {x : IoResult} (h : results.take i = rs.take i)
    (hlt : i < results.length) (hx : rs[i]? = some x) : (results.set i x).take (i + 1) = rs.take (i + 1) := by
  obtain ⟨hi, rfl⟩ := List.getElem?_eq_some_iff.1 hx
  rw [List.take_add_one, List.take_add_one, List.take_set_of_le (Nat.le_refl i), h]
  simp [hlt, hi]

/-- The writes in the order of the items, with these results. -/
theorem run_writes {rs : List IoResult} {device : Nat → UInt8} {bufs : List Bytes} (todo : List IoBatchItem) (i : Nat)
    (results : List IoResult) (s : Shared) (hrs : rs.length = i + todo.length) (hlen : results.length = rs.length)
    (hdone : results.take i = rs.take i)
    (hall : ∀ j it, todo[j]? = some it → ∃ x, rs[i + j]? = some x ∧ (x.success = true → x.error = "") ∧
      (x.success = true → ∀ a, InBlocks g it a →
        (stage bufs it).getD (a - blockOffset g it * g.blockSize) 0 = device a)) :
    Prog.run (batchDevice g) t (choicesFor rs device) (runSegments .write todo.length (todo.zipIdx i) results bufs)
        (2 * i + 1) s =
      some (.ok (rs, bufs), 2 * rs.length + 1, { s with dev := overlay g todo device s.dev }) := by
  induction todo generalizing i results s with
  | nil =>
    have hfull : results = rs := by
      rw [List.length_nil, Nat.add_zero] at hrs
      rwa [List.take_of_length_le (by omega), List.take_of_length_le (by omega)] at hdone
    have hsame : overlay g [] device s.dev = s.dev := by
      ext a
      simp [overlay]
    rw [hfull, hsame, hrs]
    rfl
  | cons it todo ih =>
    obtain ⟨x, hx, hplain, hstaged⟩ := hall 0 it rfl
    rw [Nat.add_zero] at hx
    have hlt : i < results.length := by simp only [List.length_cons] at hrs; omega
    obtain ⟨hsuccess, hresult⟩ := choicesFor_at device hx hplain
    have hwrite : writeBlocks g it (stage bufs it) x.success device s.dev =
        fun a => if InBlocks g it a then device a else s.dev a := by
      ext a
      unfold writeBlocks
      by_cases ha : InBlocks g it a
      · by_cases hs : x.success = true
        · rw [if_pos ha, if_pos hs, if_pos ha, hstaged hs a ha]
        · rw [if_pos ha, if_neg hs, if_pos ha]
      · rw [if_neg ha, if_neg ha]
    rw [List.length_cons, List.zipIdx_cons, run_write rfl, hresult, hsuccess]
    show Prog.run (batchDevice g) t _ _ (2 * (i + 1) + 1)
      { s with dev := writeBlocks g it (stage bufs it) x.success device s.dev } = _
    rw [hwrite, ih (i + 1) (results.set i x) _ (by simp only [List.length_cons] at hrs; omega) (by simpa using hlen)
      (take_set hdone hlt hx), overlay_cons]
    intro j it' hj
    have := hall (j + 1) it' hj
    rwa [show i + (j + 1) = i + 1 + j by omega] at this

/-- The buffers after the reads that succeeded. -/
def readBufs (g : StorageGeometry) (device : Nat → UInt8) : List IoBatchItem → List IoResult → List Bytes → List Bytes
  | it :: items, x :: rs, bufs =>
    readBufs g device items rs (if x.success then copyOut bufs it (readBlocks g it device) else bufs)
  | _, _, bufs => bufs

/-- The reads in the order of the items, with these results. -/
theorem run_reads {rs : List IoResult} {device : Nat → UInt8} (todo : List IoBatchItem) (i : Nat)
    (results : List IoResult) (bufs : List Bytes) (hrs : rs.length = i + todo.length) (hlen : results.length = rs.length)
    (hdone : results.take i = rs.take i) (hplain : ∀ x ∈ rs, x.success = true → x.error = "") :
    Prog.run (batchDevice g) t (choicesFor rs device) (runSegments .read todo.length (todo.zipIdx i) results bufs)
        (2 * i + 1) s =
      some (.ok (rs, readBufs g s.dev todo (rs.drop i) bufs), 2 * rs.length + 1, s) := by
  induction todo generalizing i results bufs with
  | nil =>
    have hfull : results = rs := by
      rw [List.length_nil, Nat.add_zero] at hrs
      rwa [List.take_of_length_le (by omega), List.take_of_length_le (by omega)] at hdone
    rw [hfull, hrs]
    rfl
  | cons it todo ih =>
    have hi : i < rs.length := by simp only [List.length_cons] at hrs; omega
    obtain ⟨x, hx⟩ : ∃ x, rs[i]? = some x := ⟨_, List.getElem?_eq_getElem hi⟩
    have hlt : i < results.length := by omega
    obtain ⟨hsuccess, hresult⟩ := choicesFor_at device hx (hplain x (List.mem_of_getElem? hx))
    have hdrop : rs.drop i = x :: rs.drop (i + 1) := by
      rw [List.drop_eq_getElem_cons hi]
      congr 1
      exact Option.some.inj ((List.getElem?_eq_getElem hi).symm.trans hx)
    rw [List.length_cons, List.zipIdx_cons, run_read rfl, hresult, hsuccess, hdrop]
    exact ih (i + 1) (results.set i x) _ (by simp only [List.length_cons] at hrs; omega) (by simpa using hlen)
      (take_set hdone hlt hx)

/-- A batch that is admitted goes to its segments. -/
theorem run_submit {choose : Nat → SpdkConnector.Choice} {op : Operation} {items : List IoBatchItem} {bufs : List Bytes}
    (hne : items ≠ []) (hok : ∀ it ∈ items, it.Ok g) (h : (choose 0).refusal = none) :
    Prog.run (batchDevice g) t choose (submitBatchAndWait g op items bufs) 0 s =
      Prog.run (batchDevice g) t choose
        (runSegments op items.length items.zipIdx (items.map fun _ => ⟨false, ""⟩) bufs) 1 s := by
  rw [submitBatchAndWait, if_neg hne, validate_all hok]
  simp [Prog.run, perform, Prog.perform, bind, Prog.bind, batchDevice, exec, h, Prog.ofExcept]

/-! ## Calls -/

/-- A call of `submit_batch_and_wait` and its caller's bytes. -/
structure BatchCall where
  operation : Operation
  items : List IoBatchItem
  memory : Nat → Nat → UInt8

structure BatchReturn where
  results : List IoResult
  memory : Nat → Nat → UInt8

/-- The caller's buffers have these bytes. -/
def Backs (bufs : List Bytes) (memory : Nat → Nat → UInt8) : Prop :=
  ∀ k j x, (bufs.getD k [])[j]? = some x → x = memory k j

/-- The call as the connector's program, alone on a bdev with the bytes `device`, returns so and leaves
`device'`. -/
def Serves (g : StorageGeometry) (call : BatchCall) (ret : BatchReturn) (device device' : Nat → UInt8) : Prop :=
  ∀ (t : Nat) (s : Shared) (bufs : List Bytes), Backs bufs call.memory → (∀ it ∈ call.items, Fits bufs it) →
    ∃ choose n bufs', Prog.run (batchDevice g) t choose
        (submitBatchAndWait g call.operation call.items bufs) 0 { s with dev := device } =
        some (.ok (ret.results, bufs'), n, { s with dev := device' }) ∧
      Backs bufs' ret.memory ∧ bufs'.length = bufs.length ∧
      ∀ k, (bufs'.getD k []).length = (bufs.getD k []).length

/-- What a call returns with on a bdev with the bytes `device`: a success has moved its bytes, and the caller has
the others as it had them. -/
structure Delivers (call : BatchCall) (ret : BatchReturn) (device : Nat → UInt8) : Prop where
  length : ret.results.length = call.items.length
  plain : PlainResults ret.results
  written : call.operation = .write → ∀ (i : Nat) (it : IoBatchItem) (x : IoResult), call.items[i]? = some it →
    ret.results[i]? = some x →
    x.success = true → ∀ j < it.physicalLength, device (it.byteOffset + j) = writtenByte call.memory it j
  put : call.operation = .read → ∀ (i : Nat) (it : IoBatchItem) (x : IoResult), call.items[i]? = some it →
    ret.results[i]? = some x →
    x.success = true → ∀ p, it.buffer = some p → ∀ j < it.logicalLength,
      ret.memory p.buffer (p.offset + j) = device (it.byteOffset + j)
  kept : ∀ buffer a, (call.operation = .read → ∀ (i : Nat) (it : IoBatchItem) (x : IoResult),
    call.items[i]? = some it → ret.results[i]? = some x →
    x.success = true → ¬ Target it buffer a) → ret.memory buffer a = call.memory buffer a

/-- The bytes staged for an item are those it writes. -/
theorem staged_written {bufs : List Bytes} {memory : Nat → Nat → UInt8} {it : IoBatchItem} (hb : Backs bufs memory)
    (hf : Fits bufs it) (j : Nat) : (stage bufs it).getD j 0 = writtenByte memory it j := by
  obtain ⟨p, hp, hle⟩ := hf
  unfold writtenByte
  by_cases hj : j < it.logicalLength
  · rw [if_pos hj, hp]
    exact hb _ _ _ (stage_getD hp hj hle)
  · rw [if_neg hj]
    have hlen : (((itemBuffer bufs it).drop (itemOffset it)).take it.logicalLength).length = it.logicalLength := by
      simp only [itemBuffer, itemOffset, hp, Option.elim_some, List.length_take, List.length_drop]
      omega
    rw [stage, List.getD_eq_getElem?_getD, List.getElem?_append_right (by omega), List.getElem?_replicate]
    split <;> rfl

/-- A batch of writes that returns with these results. -/
theorem writes_served (hg : g.Valid) {call : BatchCall} {ret : BatchReturn} {device : Nat → UInt8}
    (h : Delivers call ret device) (hop : call.operation = .write) (hne : call.items ≠ [])
    (hok : ∀ it ∈ call.items, it.Ok g) (old : Nat → UInt8) :
    Serves g call ret old (overlay g call.items device old) := by
  intro t s bufs hb hfits
  have hmemory : ret.memory = call.memory := by
    ext buffer a
    rw [h.kept buffer a fun hread => by simp [hop] at hread]
  refine ⟨choicesFor ret.results device, 2 * ret.results.length + 1, bufs, ?_, hmemory ▸ hb, rfl, fun _ => rfl⟩
  rw [hop, run_submit hne hok rfl]
  refine run_writes call.items 0 _ _ (by rw [h.length, Nat.zero_add]) (by simp [h.length]) (by simp) fun j it hj => ?_
  obtain ⟨x, hx⟩ : ∃ x, ret.results[j]? = some x :=
    ⟨_, List.getElem?_eq_getElem (h.length ▸ (List.getElem?_eq_some_iff.1 hj).1)⟩
  have hmem := List.mem_of_getElem? hj
  refine ⟨x, by rwa [Nat.zero_add], h.plain x (List.mem_of_getElem? hx), fun hsuccess a ha => ?_⟩
  obtain ⟨hoff, hin⟩ := inBlocks_iff hg (hok it hmem) (a := a)
  obtain ⟨h1, h2⟩ := hin.1 ha
  rw [hoff, staged_written hb (hfits it hmem),
    ← h.written hop j it x hj hx hsuccess (a - it.byteOffset) (by omega)]
  congr 1
  omega

/-- The buffers of the caller after the reads. -/
theorem readBufs_backs (hg : g.Valid) {memory : Nat → Nat → UInt8} {device : Nat → UInt8} {todo : List IoBatchItem}
    {rs : List IoResult} {bufs : List Bytes} (hlen : rs.length = todo.length) (hok : ∀ it ∈ todo, it.Ok g)
    (hfits : ∀ it ∈ todo, Fits bufs it)
    (hput : ∀ (i : Nat) (it : IoBatchItem) (x : IoResult), todo[i]? = some it → rs[i]? = some x → x.success = true →
      ∀ p, it.buffer = some p →
      ∀ j < it.logicalLength, memory p.buffer (p.offset + j) = device (it.byteOffset + j))
    (hkept : ∀ k j y, (bufs.getD k [])[j]? = some y → (∀ (i : Nat) (it : IoBatchItem) (x : IoResult),
      todo[i]? = some it → rs[i]? = some x →
      x.success = true → ¬ Target it k j) → y = memory k j) :
    Backs (readBufs g device todo rs bufs) memory ∧ (readBufs g device todo rs bufs).length = bufs.length ∧
    ∀ k, ((readBufs g device todo rs bufs).getD k []).length = (bufs.getD k []).length := by
  induction todo generalizing rs bufs with
  | nil =>
    rw [List.length_eq_zero_iff.1 hlen]
    exact ⟨fun k j y hy => hkept k j y hy (by simp), rfl, fun _ => rfl⟩
  | cons it todo ih =>
    obtain ⟨x, rs, rfl⟩ := List.exists_cons_of_length_eq_add_one hlen
    have hitem := hok it List.mem_cons_self
    have hread : readBlocks g it device = (List.range it.logicalLength).map fun k => device (it.byteOffset + k) := by
      rw [readBlocks, (@inBlocks_iff _ hg _ hitem 0).1]
    rw [readBufs, hread]
    generalize hbufs1 : (if x.success = true then
      copyOut bufs it ((List.range it.logicalLength).map fun k => device (it.byteOffset + k)) else bufs) = bufs1
    obtain ⟨hcopied, hlength, hlengths, hframe⟩ :=
      copyOut_if (hfits it List.mem_cons_self) hitem.logical_pos device x.success hbufs1.symm
    have hkept1 : ∀ k j y, (bufs1.getD k [])[j]? = some y → (∀ (i : Nat) (it' : IoBatchItem) (x' : IoResult),
        todo[i]? = some it' → rs[i]? = some x' → x'.success = true → ¬ Target it' k j) → y = memory k j := by
      intro k j y hy hrest
      by_cases hcase : x.success = true ∧ Target it k j
      · obtain ⟨hsuccess, p, hp, rfl, hle, hlt⟩ := hcase
        have hin : j - p.offset < it.logicalLength := by omega
        have hbyte := hcopied hsuccess p hp _ hin
        have hmem := hput 0 it x rfl rfl hsuccess p hp _ hin
        rw [Nat.add_sub_cancel' hle] at hbyte hmem
        rw [hmem]
        exact Option.some.inj (hy.symm.trans hbyte)
      · have hold : (bufs.getD k [])[j]? = some y := by
          by_cases hx : x.success = true
          · rwa [← hframe k j fun ht => hcase ⟨hx, ht⟩]
          · rw [if_neg hx] at hbufs1
            rwa [hbufs1]
        refine hkept k j y hold fun i it' x' hi hx hsuccess => ?_
        cases i with
        | zero =>
          obtain rfl := Option.some.inj hi
          obtain rfl := Option.some.inj hx
          exact fun ht => hcase ⟨hsuccess, ht⟩
        | succ i => exact hrest i it' x' hi hx hsuccess
    obtain ⟨h1, h2, h3⟩ := ih (by simpa using hlen) (fun it' h => hok it' (List.mem_cons_of_mem _ h))
      (fun it' h => (hfits it' (List.mem_cons_of_mem _ h)).congr hlengths)
      (fun i it' x' hi hx => hput (i + 1) it' x' hi hx) hkept1
    exact ⟨h1, h2.trans hlength, fun k => (h3 k).trans (hlengths k)⟩

/-- A batch of reads that returns with these results, of a bdev with the bytes of `device` in their ranges. -/
theorem reads_served (hg : g.Valid) {call : BatchCall} {ret : BatchReturn} {device old : Nat → UInt8}
    (h : Delivers call ret device) (hop : call.operation = .read) (hne : call.items ≠ [])
    (hok : ∀ it ∈ call.items, it.Ok g) (hsame : ∀ it ∈ call.items, ∀ a, ItemBytes it a → old a = device a) :
    Serves g call ret old old := by
  intro t s bufs hb hfits
  refine ⟨choicesFor ret.results device, 2 * ret.results.length + 1,
    readBufs g old call.items ret.results bufs, ?_, ?_⟩
  · rw [hop, run_submit hne hok rfl]
    exact run_reads call.items 0 _ bufs (by rw [h.length, Nat.zero_add]) (by simp [h.length]) (by simp) h.plain
  · refine readBufs_backs hg h.length hok hfits (fun i it x hi hx hsuccess p hp j hj => ?_) fun k j y hy hother => ?_
    · have hmem := List.mem_of_getElem? hi
      have := (hok it hmem).logical_le
      rw [h.put hop i it x hi hx hsuccess p hp j hj]
      exact (hsame it hmem _ ⟨by omega, by omega⟩).symm
    · rw [h.kept k j fun _ => hother]
      exact hb k j y hy

end

end SpdkBdevContext
end SpdkConnector
