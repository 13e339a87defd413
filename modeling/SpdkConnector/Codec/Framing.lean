import Mathlib.Data.List.Infix
import Mathlib.Logic.Function.Basic

/-!
# Strings built by concatenation

* `PrefixFree` — a family of tags none of which begins another;
* `PrefixFree.tagged_injective` — tags from such a family tell apart the kinds of message, whatever follows them;
* `suffixed_injective` — a suffix of fixed width is told apart from the free text before it.
-/
namespace Codec

variable {ι α : Type} {β : ι → Type} {γ : Type}

/-- No tag of the family begins the tag of another member. -/
def PrefixFree (tag : ι → List α) : Prop := ∀ i j, tag i <+: tag j → i = j

/-- A message of kind `i` is the tag of its kind and then its body. -/
def tagged (tag : ι → List α) (body : (i : ι) → β i → List α) (x : Sigma β) : List α :=
  tag x.1 ++ body x.1 x.2

/-- Free text and then an encoded value. -/
def suffixed (encode : γ → List α) (x : List α × γ) : List α := x.1 ++ encode x.2

theorem PrefixFree.kind_unique {tag : ι → List α} (h : PrefixFree tag) {i j : ι} {s t : List α}
    (hst : tag i ++ s = tag j ++ t) : i = j := by
  have hi : tag i <+: tag j ++ t := by
    rw [← hst]
    exact List.prefix_append _ _
  have hj : tag j <+: tag j ++ t := List.prefix_append _ _
  -- two prefixes of one string are prefixes of each other, one way or the other
  rcases List.prefix_or_prefix_of_prefix hi hj with hij | hji
  · exact h i j hij
  · exact (h j i hji).symm

theorem PrefixFree.tagged_injective {tag : ι → List α} {body : (i : ι) → β i → List α} (h : PrefixFree tag)
    (hbody : ∀ i, Function.Injective (body i)) : Function.Injective (tagged tag body) := by
  rintro ⟨i, x⟩ ⟨j, y⟩ hxy
  obtain rfl := h.kind_unique hxy
  have hrest : body i x = body i y := List.append_cancel_left hxy
  rw [hbody i hrest]

theorem suffixed_injective {encode : γ → List α} {width : Nat} (hwidth : ∀ c, (encode c).length = width)
    (henc : Function.Injective encode) : Function.Injective (suffixed encode) := by
  rintro ⟨s, c⟩ ⟨t, d⟩ h
  obtain ⟨hst, hcd⟩ := List.append_inj' h (by rw [hwidth, hwidth])
  exact Prod.ext hst (henc hcd)

end Codec
