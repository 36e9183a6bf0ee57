import SudoOS.Mm.Handshake

/-!
The handshake between CPUs that enter an address space and threads that invalidate its translations: a CPU that has entered
with an older generation is in the set of CPUs that a planner reads.
-/

namespace SudoOS

namespace Handshake

variable {s s' : Shared} {i : Agent} {k k' : Phase} {input : Input}

inductive Effect (i : Agent) (k : Phase) (s : Shared) : Shared → Prop
  | quiet : Effect i k s s
  | publish (c : Nat) (mask : CpuMask) : i = .cpu c → s.space.activeCpus.withCpu c = .ok mask →
    Effect i k s (s.setCpus mask)
  | withdraw (c : Nat) (mask : CpuMask) : i = .cpu c → s.space.activeCpus.withoutCpu c = .ok mask →
    Effect i k s (s.setCpus mask)
  | advance (n : Nat) : i = .planner n →
      Effect i k s { s with space := { s.space with tlbGeneration := s.space.tlbGeneration + 1 } }
  | record (n : Nat) (flush : TlbFlush) (generation : Nat) : i = .planner n → k = .snapshotting flush generation →
      Effect i k s { s with requests := s.requests ++ [⟨s.space.asid, s.space.activeCpus, flush, generation⟩] }

theorem exchange_cases {flush : TlbFlush} {current : Nat} {b : Bool} (h : exchange s flush current b = (s', k')) :
    s' = s ∧ (k' = .idle ∨ k' = .exchanging flush s.space.tlbGeneration) ∨
      s' = { s with space := { s.space with tlbGeneration := s.space.tlbGeneration + 1 } } ∧
        k' = .snapshotting flush (s.space.tlbGeneration + 1) := by
  unfold exchange at h
  split at h
  · cases h
    exact .inl ⟨rfl, .inl rfl⟩
  · rename_i next hnext
    obtain ⟨-, rfl⟩ := checkedAdd_eq_some.1 hnext
    split_ifs at h with hc
    · cases h
      rw [hc.2]
      exact .inr ⟨rfl, rfl⟩
    · cases h
      exact .inl ⟨rfl, .inr rfl⟩

theorem step_effect (h : step s i k input = some (s', k')) : Effect i k s s' := by
  unfold step at h
  split at h
  · split_ifs at h <;> cases h <;> exact .quiet
  · rename_i c _
    split at h <;> rename_i hmask <;> cases h
    · exact .publish c _ rfl hmask
    · exact .quiet
  · split_ifs at h <;> cases h <;> exact .quiet
  · rename_i c
    split at h <;> rename_i hmask <;> cases h
    · exact .withdraw c _ rfl hmask
    · exact .quiet
  · cases h
    exact .quiet
  · cases h
    exact .quiet
  · split_ifs at h <;> cases h <;> exact .quiet
  · rename_i c
    split at h <;> rename_i hmask <;> cases h
    · exact .withdraw c _ rfl hmask
    · exact .quiet
  · split_ifs at h <;> cases h <;> exact .quiet
  · cases h
    exact .quiet
  · rename_i n _ _
    obtain ⟨rfl, -⟩ | ⟨rfl, -⟩ := exchange_cases (Option.some.inj h)
    · exact .quiet
    · exact .advance n rfl
  · rename_i n _ _
    obtain ⟨rfl, -⟩ | ⟨rfl, -⟩ := exchange_cases (Option.some.inj h)
    · exact .quiet
    · exact .advance n rfl
  · cases h
    exact .record _ _ _ rfl rfl
  · cases h

def Issued (s : Shared) : Prop := ∀ r ∈ s.requests, r.generation ≤ s.space.tlbGeneration

def Local : Agent → Shared → Phase → Prop
  | .cpu c, s, .checking _ | .cpu c, s, .withdrawing | .cpu c, s, .leaving _ | .cpu c, s, .removing
  | .cpu c, s, .leaveFailed => s.space.activeCpus.Has c
  | .cpu c, s, .entered g => s.space.activeCpus.Has c ∧ ∀ r ∈ s.requests, g < r.generation → r.targets.Has c
  | .planner _, s, .snapshotting _ g => g ≤ s.space.tlbGeneration
  | _, _, _ => True

theorem Effect.issued (h : Effect i k s s') (hs : Issued s) (hl : Local i s k) : Issued s' := by
  cases h with
  | quiet | publish | withdraw => exact hs
  | advance => exact fun r hr => Nat.le_succ_of_le (hs r hr)
  | record n flush generation hi hk =>
    subst hi hk
    intro r hr
    rcases List.mem_append.1 hr with hr | hr
    · exact hs r hr
    · obtain rfl := List.mem_singleton.1 hr
      exact hl

/-- A step of another agent keeps the bit of a CPU. -/
theorem Effect.has {c : Nat} (h : Effect i k s s') (hi : .cpu c ≠ i) (hc : s.space.activeCpus.Has c) :
    s'.space.activeCpus.Has c := by
  cases h with
  | quiet | advance | record => exact hc
  | publish d mask hd hmask => exact (CpuMask.has_withCpu hmask c).2 (.inl hc)
  | withdraw d mask hd hmask => exact (CpuMask.has_withoutCpu hmask c).2 ⟨hc, fun hcd => hi (hcd ▸ hd.symm)⟩

theorem Effect.generation_le (h : Effect i k s s') : s.space.tlbGeneration ≤ s'.space.tlbGeneration := by
  cases h with
  | advance => exact Nat.le_succ _
  | _ => exact Nat.le_refl _

theorem Effect.other {j : Agent} {l : Phase} (h : Effect i k s s') (hj : j ≠ i) (hl : Local j s l) : Local j s' l := by
  cases j with
  | planner n =>
    cases l with
    | snapshotting flush g => exact Nat.le_trans hl h.generation_le
    | _ => exact trivial
  | cpu c =>
    cases l with
    | checking | withdrawing | leaving | removing | leaveFailed => exact h.has hj hl
    | entered g =>
      refine ⟨h.has hj hl.1, fun r hr hg => ?_⟩
      cases h with
      | record n flush generation =>
        rcases List.mem_append.1 hr with hr | hr
        · exact hl.2 r hr hg
        -- the new request takes the set of CPUs as it is, and the CPU is in it
        · obtain rfl := List.mem_singleton.1 hr
          exact hl.1
      | _ => exact hl.2 r hr hg
    | _ => exact trivial

/-- An agent's own step leads to what it can rely on next. -/
theorem step_own (hs : Issued s) (hl : Local i s k) (h : step s i k input = some (s', k')) : Local i s' k' := by
  unfold step at h
  split at h
  · split_ifs at h <;> cases h <;> exact trivial
  · split at h <;> rename_i hmask <;> cases h
    · exact (CpuMask.has_withCpu hmask _).2 (.inr rfl)
    · exact trivial
  · split_ifs at h with hg
    · cases h
      exact hl
    · cases h
      -- no request has a generation beyond the one just read
      refine ⟨hl, fun r hr hlt => ?_⟩
      have := hs r hr
      omega
  · split at h <;> cases h <;> exact trivial
  · cases h
    exact hl.1
  · cases h
    exact hl
  · split_ifs at h <;> cases h <;> exact hl
  · split at h <;> cases h
    · exact trivial
    · exact hl
  · split_ifs at h <;> cases h <;> exact trivial
  · cases h
    exact trivial
  · obtain ⟨rfl, rfl | rfl⟩ | ⟨rfl, rfl⟩ := exchange_cases (Option.some.inj h)
    · exact trivial
    · exact trivial
    · exact Nat.le_refl _
  · obtain ⟨rfl, rfl | rfl⟩ | ⟨rfl, rfl⟩ := exchange_cases (Option.some.inj h)
    · exact trivial
    · exact trivial
    · exact Nat.le_refl _
  · cases h
    exact trivial
  · cases h

theorem stable : threads.Stable Issued Local where
  init h := by
    rw [Issued, h.2]
    exact fun r hr => nomatch hr
  start {s i k} _ hk := by
    rw [show k = i.first from hk]
    cases i <;> exact trivial
  shared hs hl := fun ⟨_, h⟩ => (step_effect h).issued hs hl
  own hs hl := fun ⟨_, h⟩ => step_own hs hl h
  other hj _ _ hl := fun ⟨_, h⟩ => (step_effect h).other hj hl

/-! ### Histories -/

theorem Effect.requests_mono {r : PerMmTlbRequest} (h : Effect i k s s') (hr : r ∈ s.requests) : r ∈ s'.requests := by
  cases h with
  | record => exact List.mem_append_left _ hr
  | _ => exact hr

/-- In every interleaving, a CPU that has entered with generation `g` and has not begun to leave is a target of every
request with a later generation; and a CPU that a request does not target runs with the address space again only after it
has read that generation or a later one. -/
theorem entered_targeted_or_synchronized {s t : Threads.State Shared Agent Phase} (hs : threads.system.Reachable s)
    (ht : threads.system.Later s t) :
    (∀ c g, s.own (.cpu c) = .entered g → ∀ r ∈ s.shared.requests, g < r.generation → r.targets.Has c) ∧
      ∀ c, ∀ r ∈ s.shared.requests, ¬r.targets.Has c → ∀ g, t.own (.cpu c) = .entered g → r.generation ≤ g := by
  have hentered : ∀ u : Threads.State Shared Agent Phase, threads.system.Reachable u → ∀ c g, u.own (.cpu c) = .entered g →
      ∀ r ∈ u.shared.requests, g < r.generation → r.targets.Has c := by
    intro u hu c g hc
    have hlocal := (stable.reachable hu).2 (.cpu c)
    rw [hc] at hlocal
    exact hlocal.2
  refine ⟨hentered s hs, fun c r hr hnot g hc => ?_⟩
  have hr' : r ∈ t.shared.requests := by
    refine ht.stable (I := fun u => r ∈ u.shared.requests) (fun u i v hu hstep => ?_) hr
    obtain ⟨⟨_, h⟩, -⟩ := hstep
    exact (step_effect h).requests_mono hu
  exact Nat.not_lt.1 fun hlt => hnot (hentered t (hs.later ht) c g hc r hr' hlt)

def fresh : Threads.State Shared Agent Phase where
  shared := ⟨.new (.fromBounds 0 0) ⟨7, 3⟩, []⟩
  own i := i.first

theorem fresh_reachable : threads.system.Reachable fresh :=
  .init ⟨⟨⟨_, _, rfl⟩, rfl⟩, fun _ => rfl⟩

/-- CPU 0 enters, then a request is planned; CPU 1 enters after that. -/
theorem entered_targeted_or_synchronized_two : ∃ s t, threads.system.Reachable s ∧ threads.system.Later s t ∧
    s.own (.cpu 0) = .entered 0 ∧ t.own (.cpu 1) = .entered 1 ∧
    ∃ r ∈ s.shared.requests, r.targets.Has 0 ∧ ¬r.targets.Has 1 ∧ r.generation ≤ 1 := by
  let flush := TlbFlush.all (.addressSpace 7)
  let first := [(Agent.cpu 0, Input.enter 3 0), (.cpu 0, .advance), (.cpu 0, .advance), (.planner 0, .plan flush),
    (.planner 0, .advance), (.planner 0, .advance), (.planner 0, .advance)]
  let second := [(Agent.cpu 1, Input.enter 3 1), (.cpu 1, .advance), (.cpu 1, .advance)]
  have hact : ∀ {s i k a s' k'}, step s i k a = some (s', k') → threads.act i s k s' k' := fun h => ⟨_, h⟩
  obtain ⟨s, hs⟩ : ∃ s, Threads.replay step fresh first = some s := Option.isSome_iff_exists.1 (by decide)
  obtain ⟨t, ht⟩ : ∃ t, Threads.replay step s second = some t := by
    cases hs
    exact Option.isSome_iff_exists.1 (by decide)
  have hreach := fresh_reachable.later (Threads.replay_later hact hs)
  have hlater := Threads.replay_later (p := threads) hact ht
  have h := entered_targeted_or_synchronized hreach hlater
  cases hs
  cases ht
  refine ⟨_, _, hreach, hlater, rfl, rfl, _, List.mem_singleton.2 rfl, ?_, by decide, ?_⟩
  · exact h.1 0 0 rfl _ (List.mem_singleton.2 rfl) (by decide)
  · exact h.2 1 _ (List.mem_singleton.2 rfl) (by decide) 1 rfl

end Handshake

end SudoOS
