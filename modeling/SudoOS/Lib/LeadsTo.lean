import SudoOS.Lib.TransitionSystem

/-! Infinite runs of a transition system, and what must come to pass in them. -/

namespace TransitionSystem

variable {σ ι : Type*} {m : TransitionSystem σ ι} {run : Nat → σ} {P Q R : σ → Prop}

/-- An infinite run; between two steps the system may rest. -/
structure IsRun (m : TransitionSystem σ ι) (run : Nat → σ) : Prop where
  init : m.init (run 0)
  step : ∀ n, run (n + 1) = run n ∨ ∃ a, m.step (run n) a (run (n + 1))

theorem IsRun.reachable (h : m.IsRun run) (n : Nat) : m.Reachable (run n) := by
  induction n with
  | zero => exact .init h.init
  | succ n ih =>
    rcases h.step n with heq | ⟨a, hstep⟩
    · exact heq ▸ ih
    · exact ih.step hstep

def LeadsTo (run : Nat → σ) (P Q : σ → Prop) : Prop := ∀ n, P (run n) → ∃ k, n ≤ k ∧ Q (run k)

namespace LeadsTo

theorem trans (h : LeadsTo run P Q) (h' : LeadsTo run Q R) : LeadsTo run P R := by
  intro n hP
  obtain ⟨k, hk, hQ⟩ := h n hP
  obtain ⟨l, hl, hR⟩ := h' k hQ
  exact ⟨l, Nat.le_trans hk hl, hR⟩

theorem or (h : LeadsTo run P R) (h' : LeadsTo run Q R) : LeadsTo run (fun s => P s ∨ Q s) R :=
  fun n hPQ => hPQ.elim (h n) (h' n)

theorem of_imp (h : ∀ n, P (run n) → Q (run n)) : LeadsTo run P Q := fun n hP => ⟨n, le_rfl, h n hP⟩

/-- `P` lasts until `Q` comes, and it does not last for ever. -/
theorem of_unless (hunless : ∀ n, P (run n) → P (run (n + 1)) ∨ Q (run (n + 1)))
    (hleaves : ∀ n, P (run n) → ∃ k, n ≤ k ∧ ¬ P (run k)) : LeadsTo run P Q := by
  intro n hP
  classical
  have hex : ∃ d, ¬ P (run (n + d)) := by
    obtain ⟨k, hk, hnot⟩ := hleaves n hP
    exact ⟨k - n, by rwa [Nat.add_sub_cancel' hk]⟩
  obtain ⟨d, hd⟩ : ∃ d, Nat.find hex = d + 1 := Nat.exists_eq_succ_of_ne_zero fun hzero =>
    (Nat.find_eq_zero hex).1 hzero hP
  have hlast : P (run (n + d)) := not_not.1 (Nat.find_min hex (by omega))
  have hfirst : ¬ P (run (n + d + 1)) := by
    have hspec := Nat.find_spec hex
    rwa [hd] at hspec
  exact ⟨n + d + 1, by omega, (hunless _ hlast).resolve_left hfirst⟩

end LeadsTo

end TransitionSystem
