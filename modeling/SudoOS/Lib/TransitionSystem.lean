import Mathlib

/-!
Labelled transition systems: reachable states, runs between two states, and the rules that turn a fact about one step into
a fact about every run.
-/

structure TransitionSystem (σ ι : Type*) where
  init : σ → Prop
  step : σ → ι → σ → Prop

namespace TransitionSystem

variable {σ ι : Type*} {m : TransitionSystem σ ι} {I : σ → Prop} {s t : σ}

inductive Reachable (m : TransitionSystem σ ι) : σ → Prop
  | init {s : σ} : m.init s → Reachable m s
  | step {s t : σ} {a : ι} : Reachable m s → m.step s a t → Reachable m t

/-- `t` comes after `s` in some run. -/
def Later (m : TransitionSystem σ ι) : σ → σ → Prop :=
  Relation.ReflTransGen fun s t => ∃ a, m.step s a t

/-- The system that takes only the steps whose label meets `G` in the state they start from. -/
def restrict (m : TransitionSystem σ ι) (G : σ → ι → Prop) : TransitionSystem σ ι where
  init := m.init
  step s a t := m.step s a t ∧ G s a

theorem Reachable.invariant (h : m.Reachable s) (init : ∀ s, m.init s → I s)
    (step : ∀ s a t, I s → m.step s a t → I t) : I s := by
  induction h with
  | init h => exact init _ h
  | step _ hstep ih => exact step _ _ _ ih hstep

/-- A property that every step keeps holds from the moment it first holds. -/
theorem Later.stable (h : m.Later s t) (step : ∀ s a t, I s → m.step s a t → I t) (hs : I s) : I t := by
  induction h with
  | refl => exact hs
  | tail _ hstep ih =>
    obtain ⟨a, hstep⟩ := hstep
    exact step _ _ _ ih hstep

theorem Reachable.later (hs : m.Reachable s) (h : m.Later s t) : m.Reachable t :=
  h.stable (fun _ _ _ hr hstep => hr.step hstep) hs

/-! ### Scripts -/

section play
variable {f : σ → ι → Option σ}

/-- Plays a script of labels on a state, where `f` computes each step. -/
def play (f : σ → ι → Option σ) : σ → List ι → Option σ
  | s, [] => some s
  | s, a :: rest => (f s a).bind fun t => play f t rest

theorem play_later_of_mem {script : List ι} (hf : ∀ a ∈ script, ∀ {s t}, f s a = some t → m.step s a t)
    (h : play f s script = some t) : m.Later s t := by
  induction script generalizing s with
  | nil =>
    cases h
    exact .refl
  | cons a rest ih =>
    obtain ⟨u, hstep, hrest⟩ := Option.bind_eq_some_iff.1 h
    exact .head ⟨a, hf a List.mem_cons_self hstep⟩ (ih (fun b hb => hf b (List.mem_cons_of_mem a hb)) hrest)

theorem play_later (hf : ∀ {s a t}, f s a = some t → m.step s a t) {script : List ι} (h : play f s script = some t) :
    m.Later s t := play_later_of_mem (fun _ _ => hf) h

theorem Reachable.of_play {Q : σ → Prop} [DecidablePred Q] (hs : m.Reachable s) (hf : ∀ {s a t}, f s a = some t →
    m.step s a t)
    {script : List ι} (h : (play f s script).any (fun t => decide (Q t)) = true) : ∃ t, m.Reachable t ∧ Q t := by
  obtain ⟨t, ht, hQ⟩ := (Option.any_eq_true _ _).1 h
  exact ⟨t, hs.later (play_later hf ht), of_decide_eq_true hQ⟩

end play

end TransitionSystem
