import Mathlib

/-! Circular waits among parties that hold resources and want at most one more, and the order that rules them out. -/

namespace WaitFor

variable {ι ρ κ : Type*}

def Circular (wants : ι → Option ρ) (holds : ι → ρ → Prop) : Prop :=
  ∃ C : Finset ι, C.Nonempty ∧ ∀ c ∈ C, ∃ c' ∈ C, ∃ r, wants c' = some r ∧ holds c r

/-- Nobody waits in a circle if everybody wants something above all that they hold. -/
theorem not_circular [LinearOrder κ] {wants : ι → Option ρ} {holds : ι → ρ → Prop} (key : ρ → κ)
    (h : ∀ c r r', wants c = some r → holds c r' → key r' < key r) : ¬ Circular wants holds := by
  rintro ⟨C, hne, hC⟩
  obtain ⟨c₀, hc₀⟩ := hne
  obtain ⟨-, -, r₀, -⟩ := hC c₀ hc₀
  have : Nonempty ρ := ⟨r₀⟩
  choose! waiter hwaiter wanted hwants hholds using hC
  -- the least of the wanted resources is held by somebody whose waiter holds a lesser one
  obtain ⟨c, hc, hmin⟩ := C.exists_min_image (fun c => key (wanted c)) ⟨c₀, hc₀⟩
  have hless := h (waiter c) (wanted c) (wanted (waiter c)) (hwants c hc) (hholds (waiter c) (hwaiter c hc))
  exact absurd (hmin (waiter c) (hwaiter c hc)) (not_le.2 hless)

end WaitFor
