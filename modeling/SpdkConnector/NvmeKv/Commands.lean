import SpdkConnector.Interleaving.Rely
import SpdkConnector.NvmeKv.Store

/-!
# Engine commands

What `store_if_absent` and `delete` leave at a key, and the rule for one engine call of a program.
-/
namespace SpdkConnector
namespace NvmeKv

open Codec Interleaving

variable {t : Nat} {s s' : Engine} {luck : Luck → Prop}

theorem effect_insert {key value : Bytes} (h : s.get key = none) :
    s.effect t (.storeIfAbsent key value) = ⟨s.records ++ [(key, value)], s.writes ++ [(t, key)]⟩ := by
  simp only [Engine.effect, h]

theorem get_insert {key value : Bytes} (h : s.get key = none) (k : Bytes) :
    (s.effect t (.storeIfAbsent key value)).get k = if k = key then some value else s.get k := by
  rw [effect_insert h, Engine.get, List.lookup_append]
  split
  · rename_i hk
    rw [hk, show s.records.lookup key = none from h]
    simp
  · rename_i hk
    rw [List.lookup_cons, show (k == key) = false by simpa using hk]
    simp [Engine.get]

theorem get_delete (key k : Bytes) :
    (s.effect t (.delete key)).get k = if k = key then none else s.get k := by
  simp only [Engine.effect, Engine.get]
  generalize s.records = rs
  induction rs with
  | nil => simp
  | cons r rs ih =>
    obtain ⟨k', v⟩ := r
    by_cases hk' : k' = key
    · subst hk'
      rw [List.filter_cons_of_neg (by simp), ih]
      split
      · rfl
      · rename_i hne
        rw [List.lookup_cons, show (k == k') = false by simpa using hne]
    · rw [List.filter_cons_of_pos (by simpa using hk'), List.lookup_cons, List.lookup_cons, ih]
      split
      · rename_i heq
        rw [if_neg]
        rintro rfl
        exact hk' (beq_iff_eq.1 heq).symm
      · rfl

/-- Commands never wait. -/
theorem exec_total (t : Nat) (c : Command) (ch : Luck) (s : Engine) : ∃ r s', exec t c ch s = some (r, s') := by
  cases ch <;> exact ⟨_, _, rfl⟩

/-- Some command may raise. -/
def Raises (luck : Luck → Prop) : Prop := ∃ ch, luck ch ∧ ch ≠ .done

section
variable {G : Rely Engine} {α : Type}

/-- An engine call: either it raises, before or after its effect, or its reply goes on. -/
theorem wp_ask {c : Command} {f : Reply c → KvProg α} {Q : Except Exn α → Engine → Prop}
    (h : ∀ s', G.env s s' → G.inv s' → (G.does s' s' ∧ G.does s' (s'.effect t c) ∧ G.inv (s'.effect t c)) ∧
      G.wp (exec t) luck (f (s'.reply c)) (s'.effect t c) Q)
    (herr : Raises luck → ∀ s', G.inv s' → Q (.error .engine) s') :
    G.wp (exec t) luck ((ask c).bind f) s Q := by
  intro s' he hi ch hch r s'' hx
  obtain ⟨⟨hsame, hdoes, hinv⟩, hk⟩ := h s' he hi
  cases ch with
  | done =>
    cases hx
    exact ⟨⟨hdoes, hinv⟩, hk⟩
  | raiseBefore =>
    cases hx
    exact ⟨⟨hsame, hi⟩, fun s3 _ hi3 => herr ⟨_, hch, nofun⟩ s3 hi3⟩
  | raiseAfter =>
    cases hx
    exact ⟨⟨hdoes, hinv⟩, fun s3 _ hi3 => herr ⟨_, hch, nofun⟩ s3 hi3⟩

/-- A conditional store: it inserts, or finds the key taken. -/
theorem wp_storeIfAbsent {key value : Bytes} {f : Bool → KvProg α} {Q : Except Exn α → Engine → Prop}
    (hsame : ∀ s', G.inv s' → G.does s' s')
    (hnew : ∀ s', G.env s s' → G.inv s' → s'.get key = none →
      (G.does s' (s'.effect t (.storeIfAbsent key value)) ∧ G.inv (s'.effect t (.storeIfAbsent key value))) ∧
        G.wp (exec t) luck (f true) (s'.effect t (.storeIfAbsent key value)) Q)
    (hold : ∀ s' v, G.env s s' → G.inv s' → s'.get key = some v → G.wp (exec t) luck (f false) s' Q)
    (herr : ∀ s', G.inv s' → Q (.error .engine) s') :
    G.wp (exec t) luck ((ask (.storeIfAbsent key value)).bind f) s Q := by
  refine wp_ask (fun s' he hi => ?_) fun _ => herr
  cases hget : s'.get key with
  | none =>
    obtain ⟨⟨hdoes, hinv⟩, hf⟩ := hnew s' he hi hget
    have hreply : s'.reply (.storeIfAbsent key value) = true := by simp [Engine.reply, hget]
    exact ⟨⟨hsame s' hi, hdoes, hinv⟩, hreply ▸ hf⟩
  | some v =>
    have hreply : s'.reply (.storeIfAbsent key value) = false := by simp [Engine.reply, hget]
    have heffect : s'.effect t (.storeIfAbsent key value) = s' := by simp only [Engine.effect, hget]
    rw [heffect, hreply]
    exact ⟨⟨hsame s' hi, hsame s' hi, hi⟩, hold s' v he hi hget⟩

end

theorem ask_pure (c : Command) : (ask c).bind .pure = ask c := by
  unfold ask
  refine congrArg (Prog.call c) (funext fun r => ?_)
  cases r <;> rfl

end NvmeKv
end SpdkConnector
