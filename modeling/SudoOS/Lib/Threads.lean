import SudoOS.Lib.LeadsTo

/-!
Threads that interleave on a shared state. An invariant of such a system is a fact about the shared state together with a
fact about each thread, which the thread itself establishes and which no step of another thread disturbs.
-/

/-- What the shared state is at first, where each thread starts, and the atomic actions of each thread. -/
structure Threads (σ ι κ : Type*) where
  init : σ → Prop
  start : ι → κ → Prop
  act : ι → σ → κ → σ → κ → Prop

namespace Threads

variable {σ ι κ : Type*} {p : Threads σ ι κ}

@[ext] structure State (σ ι κ : Type*) where
  shared : σ
  own : ι → κ

def system (p : Threads σ ι κ) : TransitionSystem (State σ ι κ) ι where
  init s := p.init s.shared ∧ ∀ i, p.start i (s.own i)
  step s i t := p.act i s.shared (s.own i) t.shared (t.own i) ∧ ∀ j, j ≠ i → t.own j = s.own j

structure Stable (p : Threads σ ι κ) (I : σ → Prop) (L : ι → σ → κ → Prop) : Prop where
  init : ∀ {s}, p.init s → I s
  start : ∀ {s i k}, p.init s → p.start i k → L i s k
  shared : ∀ {i s k s' k'}, I s → L i s k → p.act i s k s' k' → I s'
  own : ∀ {i s k s' k'}, I s → L i s k → p.act i s k s' k' → L i s' k'
  other : ∀ {i j s k s' k' l}, j ≠ i → I s → L i s k → L j s l → p.act i s k s' k' → L j s' l

variable {I : σ → Prop} {L : ι → σ → κ → Prop}

theorem Stable.step (h : p.Stable I L) {s t : State σ ι κ} {i : ι} (hI : I s.shared) (hL : ∀ j, L j s.shared (s.own j))
    (hstep : p.system.step s i t) : I t.shared ∧ ∀ j, L j t.shared (t.own j) := by
  obtain ⟨hact, hother⟩ := hstep
  refine ⟨h.shared hI (hL i) hact, fun j => ?_⟩
  by_cases hj : j = i
  · exact hj ▸ h.own hI (hL i) hact
  · exact hother j hj ▸ h.other hj hI (hL i) (hL j) hact

theorem Stable.reachable (h : p.Stable I L) {s : State σ ι κ} (hs : p.system.Reachable s) :
    I s.shared ∧ ∀ j, L j s.shared (s.own j) := by
  refine hs.invariant (I := fun s => I s.shared ∧ ∀ j, L j s.shared (s.own j)) ?_ ?_
  · exact fun s hinit => ⟨h.init hinit.1, fun j => h.start hinit.1 (hinit.2 j)⟩
  · exact fun s i t hinv hstep => h.step hinv.1 hinv.2 hstep

/-- A second invariant, each step of which may rest on the first. -/
theorem Stable.extend (h : p.Stable I L) {J : σ → Prop} {M : ι → σ → κ → Prop} (init : ∀ {s}, p.init s → J s)
    (start : ∀ {s i k}, p.init s → p.start i k → M i s k)
    (shared : ∀ {i s k s' k'}, I s → L i s k → J s → M i s k → p.act i s k s' k' → J s')
    (own : ∀ {i s k s' k'}, I s → L i s k → J s → M i s k → p.act i s k s' k' → M i s' k')
    (other : ∀ {i j s k s' k' l}, j ≠ i → I s → L i s k → L j s l → J s → M i s k → M j s l → p.act i s k s' k' →
      M j s' l) :
    p.Stable (fun s => I s ∧ J s) fun i s k => L i s k ∧ M i s k where
  init hinit := ⟨h.init hinit, init hinit⟩
  start hinit hstart := ⟨h.start hinit hstart, start hinit hstart⟩
  shared hs hk hact := ⟨h.shared hs.1 hk.1 hact, shared hs.1 hk.1 hs.2 hk.2 hact⟩
  own hs hk hact := ⟨h.own hs.1 hk.1 hact, own hs.1 hk.1 hs.2 hk.2 hact⟩
  other hne hs hk hl hact := ⟨h.other hne hs.1 hk.1 hl.1 hact, other hne hs.1 hk.1 hl.1 hs.2 hk.2 hl.2 hact⟩

/-! ### Scripts -/

section replay
variable [DecidableEq ι] {α : Type*} {f : σ → ι → κ → α → Option (σ × κ)}

/-- Plays a script of threads and choices on a state, where `f` computes each step. -/
def replay (f : σ → ι → κ → α → Option (σ × κ)) : State σ ι κ → List (ι × α) → Option (State σ ι κ)
  | s, [] => some s
  | s, (i, a) :: rest =>
    match f s.shared i (s.own i) a with
    | some (shared, k) => replay f ⟨shared, Function.update s.own i k⟩ rest
    | none => none

theorem replay_later (hf : ∀ {s i k a s' k'}, f s i k a = some (s', k') → p.act i s k s' k') {s t : State σ ι κ}
    {script : List (ι × α)} (h : replay f s script = some t) : p.system.Later s t := by
  induction script generalizing s with
  | nil =>
    cases h
    exact .refl
  | cons entry rest ih =>
    obtain ⟨i, a⟩ := entry
    rw [replay] at h
    split at h
    · rename_i shared k hstep
      refine .head ⟨i, ?_, fun j hj => Function.update_of_ne hj _ _⟩ (ih h)
      simpa only [Function.update_self] using hf hstep
    · cases h

theorem reachable_of_replay {Q : State σ ι κ → Prop} [DecidablePred Q] {s : State σ ι κ} (hs : p.system.Reachable s)
    (hf : ∀ {s i k a s' k'}, f s i k a = some (s', k') → p.act i s k s' k') {script : List (ι × α)}
    (h : (replay f s script).any (fun t => decide (Q t)) = true) : ∃ t, p.system.Reachable t ∧ Q t := by
  obtain ⟨t, ht, hQ⟩ := (Option.any_eq_true _ _).1 h
  exact ⟨t, hs.later (replay_later hf ht), of_decide_eq_true hQ⟩

/-- The steps that pass a test. -/
def guarded (ok : σ → ι → κ → α → Bool) (f : σ → ι → κ → α → Option (σ × κ)) (s : σ) (i : ι) (k : κ) (a : α) :
    Option (σ × κ) :=
  if ok s i k a then f s i k a else none

omit [DecidableEq ι] in
theorem guarded_eq_some {ok : σ → ι → κ → α → Bool} {s : σ} {i : ι} {k : κ} {a : α} {next : σ × κ}
    (h : guarded ok f s i k a = some next) : ok s i k a = true ∧ f s i k a = some next := by
  unfold guarded at h
  split_ifs at h with hok
  exact ⟨hok, h⟩

def follow (f : σ → ι → κ → α → Option (σ × κ)) (s : State σ ι κ) (script : List (ι × α)) : Nat → State σ ι κ
  | 0 => s
  | n + 1 =>
    match script[n]? with
    | some (i, a) =>
      match f (follow f s script n).shared i ((follow f s script n).own i) a with
      | some (shared, k) => ⟨shared, Function.update (follow f s script n).own i k⟩
      | none => follow f s script n
    | none => follow f s script n

theorem follow_isRun (hf : ∀ {s i k a s' k'}, f s i k a = some (s', k') → p.act i s k s' k') {s : State σ ι κ}
    (hs : p.system.init s) (script : List (ι × α)) : p.system.IsRun (follow f s script) := by
  refine ⟨hs, fun n => ?_⟩
  rw [follow]
  split
  · rename_i i a _
    split
    · rename_i shared k hstep
      refine .inr ⟨i, ?_, fun j hj => Function.update_of_ne hj _ _⟩
      simpa only [Function.update_self] using hf hstep
    · exact .inl rfl
  · exact .inl rfl

theorem follow_of_le {s : State σ ι κ} {script : List (ι × α)} {n : Nat} (h : script.length ≤ n) :
    follow f s script n = follow f s script script.length := by
  induction h with
  | refl => rfl
  | @step n hn ih => rw [follow, List.getElem?_eq_none hn, ih]

end replay

end Threads
