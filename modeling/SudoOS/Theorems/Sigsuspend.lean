import SudoOS.Lib.Threads
import SudoOS.Theorems.SignalFrame

/-! `rt_sigsuspend` in a process with several threads. -/

namespace SudoOS.Sigsuspend

inductive Place
  | user
  | waiting (before temporary : Word)
  | leaving (before : Word)
  | back (before : Word)
  | gone
deriving DecidableEq

/-- What the threads of a process share, and whether the assertion of `begin_sigsuspend` has failed. -/
structure Shared where
  signals : SignalState
  memory : UserMemory
  asserted : Bool

structure Own where
  frame : TrapFrame
  masks : SignalMasks
  place : Place

inductive Input
  | other (signals : SignalState) (memory : UserMemory) (frame : TrapFrame) (blocked : Word)
  | suspend (maskAddress sigsetsize : Word)
  | check
  | deliver

def Own.caller (k : Own) (s : Shared) : Caller := ⟨k.masks, s.signals, s.memory⟩

def suspend (s : Shared) (k : Own) (maskAddress sigsetsize : Word) : Shared × Own :=
  match (k.caller s).sysRtSigsuspend maskAddress sigsetsize with
  | .error _ => (s, { k with place := .user })
  | .ok (temporary, caller) =>
    if k.masks.sigsuspendSaved = noSigsuspendSavedMask then
      (s, { k with masks := caller.masks, place := .waiting k.masks.blocked temporary })
    else ({ s with asserted := true }, k)

def deliver (s : Shared) (k : Own) (without : Place) : Shared × Own :=
  match (k.caller s).deliverPendingSignal k.frame with
  | (.resume frame, later) =>
    (⟨later.signals, later.memory, s.asserted⟩,
      ⟨frame, later.masks, if (k.caller s).caught.isSome then .user else without⟩)
  | (.terminate _, later) => (⟨later.signals, later.memory, s.asserted⟩, ⟨k.frame, later.masks, .gone⟩)

def step (s : Shared) (k : Own) (input : Input) : Option (Shared × Own) :=
  if s.asserted then none
  else
    match k.place, input with
    | .user, .other signals memory frame blocked | .back _, .other signals memory frame blocked =>
      some (⟨signals, memory, false⟩, ⟨frame, k.masks.setBlockedSignals blocked, .user⟩)
    | .user, .deliver => some (deliver s k .user)
    | .user, .suspend maskAddress sigsetsize | .back _, .suspend maskAddress sigsetsize =>
      some (suspend s k maskAddress sigsetsize)
    | .waiting before temporary, .check =>
      some (s, { k with place := if s.signals.pending &&& ~~~temporary = 0 then k.place else .leaving before })
    | .leaving before, .deliver => some (deliver s k (.back before))
    | _, _ => none

def undisturbed (s : Shared) (k : Own) (input : Input) : Bool :=
  match k.place, input with
  | .leaving _, .deliver => s.signals.pending &&& ~~~k.masks.blocked != 0
  | _, .suspend _ _ => k.masks.blocked != noSigsuspendSavedMask
  | _, _ => true

def Undisturbed (s : Shared) (k : Own) (input : Input) : Prop := undisturbed s k input = true

def threads (allowed : Shared → Own → Input → Prop) : Threads Shared Nat Own where
  init s := s.asserted = false
  start _ k := k.place = .user ∧ k.masks.sigsuspendSaved = noSigsuspendSavedMask
  act _ s k s' k' := ∃ input, allowed s k input ∧ step s k input = some (s', k')

variable {s s' : Shared} {k k' : Own} {input : Input}

def Own.Sound (k : Own) : Prop :=
  match k.place with
  | .user => k.masks.sigsuspendSaved = noSigsuspendSavedMask
  | .waiting before temporary => k.masks = ⟨temporary, before⟩ ∧ before ≠ noSigsuspendSavedMask
  | .leaving before => k.masks.sigsuspendSaved = before ∧ before ≠ noSigsuspendSavedMask
  | .back before => k.masks = ⟨before, noSigsuspendSavedMask⟩
  | .gone => True

theorem takeUnblocked_eq_none {signals : SignalState} {blocked : Word} (h : signals.takeUnblocked blocked = none) :
    signals.pending &&& ~~~blocked = 0 := by
  unfold SignalState.takeUnblocked SignalState.takeLowest at h
  rw [Option.map_eq_none_iff, List.find?_eq_none] at h
  refine BitVec.eq_of_getLsbD_eq fun i hi => ?_
  have hbit := h i (List.mem_range.2 hi)
  rw [Bool.not_eq_true] at hbit
  rw [hbit]
  simp

theorem restoreSigsuspendMaskWithoutHandler_of_saved {masks : SignalMasks}
    (h : masks.sigsuspendSaved ≠ noSigsuspendSavedMask) :
    masks.restoreSigsuspendMaskWithoutHandler = ⟨masks.sigsuspendSaved, noSigsuspendSavedMask⟩ := by
  simp only [SignalMasks.restoreSigsuspendMaskWithoutHandler, SignalMasks.takeSigsuspendSavedMask, if_neg h]
  rfl

theorem deliver_sound_user (h : k.masks.sigsuspendSaved = noSigsuspendSavedMask) : (deliver s k .user).2.Sound := by
  unfold deliver
  split
  · rename_i next later hdeliver
    cases hcaught : (k.caller s).caught with
    | none =>
      obtain ⟨-, -, hmasks⟩ := Caller.deliverPendingSignal_not_caught hcaught hdeliver
      show later.masks.sigsuspendSaved = _
      rw [hmasks]
      split_ifs
      · exact SignalMasks.restoreSigsuspendMaskWithoutHandler_saved _
      · exact h
    | some found =>
      obtain ⟨signal, action, signals⟩ := found
      exact (Caller.installSignalFrame_installed (Caller.deliverPendingSignal_caught hcaught hdeliver)).saved
  · trivial

/-- A delivery that ends a wait restores the mask, if there is still a signal to deliver. -/
theorem deliver_sound_leaving {before : Word} (hsaved : k.masks.sigsuspendSaved = before)
    (hne : before ≠ noSigsuspendSavedMask) (havailable : s.signals.pending &&& ~~~k.masks.blocked ≠ 0) :
    (deliver s k (.back before)).2.Sound := by
  unfold deliver
  split
  · rename_i next later hdeliver
    cases hcaught : (k.caller s).caught with
    | none =>
      obtain ⟨-, -, hmasks⟩ := Caller.deliverPendingSignal_not_caught hcaught hdeliver
      have htaken : ((k.caller s).signals.takeUnblocked (k.caller s).masks.blocked).isSome = true := by
        rw [Option.isSome_iff_ne_none]
        exact fun hnone => havailable (takeUnblocked_eq_none hnone)
      rw [if_pos htaken] at hmasks
      show later.masks = _
      rw [hmasks, restoreSigsuspendMaskWithoutHandler_of_saved (hsaved ▸ hne)]
      exact congrArg (SignalMasks.mk · _) hsaved
    | some found =>
      obtain ⟨signal, action, signals⟩ := found
      exact (Caller.installSignalFrame_installed (Caller.deliverPendingSignal_caught hcaught hdeliver)).saved
  · trivial

theorem suspend_sound (s : Shared) (maskAddress sigsetsize : Word) (h : k.masks.sigsuspendSaved = noSigsuspendSavedMask)
    (hne : k.masks.blocked ≠ noSigsuspendSavedMask) :
    (suspend s k maskAddress sigsetsize).1 = s ∧ (suspend s k maskAddress sigsetsize).2.Sound := by
  unfold suspend
  split
  · exact ⟨rfl, h⟩
  · rename_i temporary caller hcall
    rw [if_pos h]
    refine ⟨rfl, ?_, hne⟩
    simp only [Caller.sysRtSigsuspend] at hcall
    split_ifs at hcall
    split at hcall
    · cases hcall
    · cases hcall
      rfl

theorem step_sound (h : s.asserted = false) (hk : k.Sound) (hallowed : Undisturbed s k input)
    (hstep : step s k input = some (s', k')) : s'.asserted = false ∧ k'.Sound := by
  have hdelivered (without : Place) : (deliver s k without).1.asserted = false := by
    unfold deliver
    split <;> exact h
  obtain ⟨frame, masks, place⟩ := k
  cases place <;> cases input <;>
    simp only [step, h, Bool.false_eq_true, if_false, Option.some.injEq, reduceCtorEq] at hstep
  case user.other signals memory next blocked =>
    cases hstep
    exact ⟨rfl, hk⟩
  case back.other before signals memory next blocked =>
    cases hstep
    exact ⟨rfl, congrArg SignalMasks.sigsuspendSaved hk⟩
  case user.suspend maskAddress sigsetsize =>
    obtain ⟨hshared, hsound⟩ := suspend_sound s maskAddress sigsetsize hk (bne_iff_ne.1 hallowed)
    rw [hstep] at hshared hsound
    exact ⟨(congrArg Shared.asserted hshared).trans h, hsound⟩
  case back.suspend before maskAddress sigsetsize =>
    have hsaved : masks.sigsuspendSaved = noSigsuspendSavedMask := congrArg SignalMasks.sigsuspendSaved hk
    obtain ⟨hshared, hsound⟩ := suspend_sound s maskAddress sigsetsize hsaved (bne_iff_ne.1 hallowed)
    rw [hstep] at hshared hsound
    exact ⟨(congrArg Shared.asserted hshared).trans h, hsound⟩
  case user.deliver =>
    have hasserted := hdelivered .user
    have hsound := deliver_sound_user (s := s) hk
    rw [hstep] at hasserted hsound
    exact ⟨hasserted, hsound⟩
  case waiting.check before temporary =>
    cases hstep
    obtain ⟨rfl, hne⟩ := hk
    refine ⟨h, ?_⟩
    unfold Own.Sound
    split_ifs
    · exact ⟨rfl, hne⟩
    · exact ⟨rfl, hne⟩
  case leaving.deliver before =>
    have hasserted := hdelivered (.back before)
    have hsound := deliver_sound_leaving (s := s) hk.1 hk.2 (bne_iff_ne.1 hallowed)
    rw [hstep] at hasserted hsound
    exact ⟨hasserted, hsound⟩

theorem stable : (threads Undisturbed).Stable (fun s => s.asserted = false) fun _ _ k => k.Sound where
  init := id
  start := by
    rintro s i k - ⟨hplace, hsaved⟩
    unfold Own.Sound
    rw [hplace]
    exact hsaved
  shared h hk hact := (step_sound h hk hact.choose_spec.1 hact.choose_spec.2).1
  own h hk hact := (step_sound h hk hact.choose_spec.1 hact.choose_spec.2).2
  other _ _ _ hl _ := hl

/-- Every thread that is back from `rt_sigsuspend` without a handler has the mask from before the call and no saved mask,
and the assertion has not failed. -/
structure NoLeak (s : Threads.State Shared Nat Own) : Prop where
  restored : ∀ {i before}, (s.own i).place = .back before → (s.own i).masks = ⟨before, noSigsuspendSavedMask⟩
  asserted : s.shared.asserted = false

theorem suspend_no_leak {s : Threads.State Shared Nat Own} (h : (threads Undisturbed).system.Reachable s) : NoLeak s := by
  obtain ⟨hasserted, hsound⟩ := stable.reachable h
  refine ⟨?_, hasserted⟩
  intro i before hplace
  have hown := hsound i
  unfold Own.Sound at hown
  rwa [hplace] at hown

def idle : Threads.State Shared Nat Own where
  shared := ⟨⟨0, (Vector.replicate 64 KernelSigAction.default).set 9 ⟨sigIgn, 0, 0, 0⟩ Nest.tenthAction_lt⟩,
    ⟨fun _ => 0, fun _ => true, fun _ => true⟩, false⟩
  own _ := ⟨⟨(Vector.replicate 32 0).set 2 0x8000 TrapFrame.stackRegister_lt, 0, 0, 0, 0, 0, 0⟩, ⟨1, noSigsuspendSavedMask⟩,
    .user⟩

def suspendAndPost : List (Nat × Input) :=
  [(0, .suspend 0x1000 8),
    (1, .other { idle.shared.signals with pending := 1#64 <<< 9 } idle.shared.memory (idle.own 1).frame 0), (0, .check)]

theorem suspend_no_leak_posted : ∃ s, (threads Undisturbed).system.Reachable s ∧ (s.own 0).place = .back 1 ∧ NoLeak s := by
  have hrun : (Threads.replay (Threads.guarded (fun s _ => undisturbed s) fun s _ => step s) idle
      (suspendAndPost ++ [(0, .deliver)])).any (fun s => decide ((s.own 0).place = .back 1)) = true := by
    decide +kernel
  have hinit : (threads Undisturbed).system.Reachable idle := .init ⟨rfl, fun _ => ⟨rfl, rfl⟩⟩
  have hact : ∀ {s i k a s' k'}, Threads.guarded (fun s _ => undisturbed s) (fun s _ => step s) s i k a = some (s', k') →
      (threads Undisturbed).act i s k s' k' := fun h => ⟨_, Threads.guarded_eq_some h⟩
  obtain ⟨s, hreach, hback⟩ := Threads.reachable_of_replay hinit hact hrun
  exact ⟨s, hreach, hback, suspend_no_leak hreach⟩

/-- Thread 1 takes the signal at the end of a call of its own: thread 0 comes back with the temporary mask and a saved one,
and its next call fails the assertion. -/
theorem suspend_leaks : ∃ s t, (threads fun _ _ _ => True).system.Reachable s ∧ (s.own 0).place = .back 1 ∧
    (s.own 0).masks = ⟨0, 1⟩ ∧ (threads fun _ _ _ => True).system.Later s t ∧ t.shared.asserted = true := by
  have hrun : (Threads.replay (fun s _ => step s) idle (suspendAndPost ++ [(1, .deliver), (0, .deliver)])).any (fun s =>
      decide ((s.own 0).place = .back 1 ∧ (s.own 0).masks = ⟨0, 1⟩) &&
        (Threads.replay (fun s _ => step s) s [(0, .suspend 0x1000 8)]).any fun t => t.shared.asserted) = true := by
    decide +kernel
  obtain ⟨s, hs, hend⟩ := (Option.any_eq_true _ _).1 hrun
  obtain ⟨hback, hagain⟩ := Bool.and_eq_true_iff.1 hend
  obtain ⟨hplace, hmasks⟩ := of_decide_eq_true hback
  obtain ⟨t, ht, hasserted⟩ := (Option.any_eq_true _ _).1 hagain
  have hact : ∀ {s k a s' k'} {i : Nat}, step s k a = some (s', k') → (threads fun _ _ _ => True).act i s k s' k' :=
    fun h => ⟨_, trivial, h⟩
  have hinit : (threads fun _ _ _ => True).system.Reachable idle := .init ⟨rfl, fun _ => ⟨rfl, rfl⟩⟩
  exact ⟨s, t, hinit.later (Threads.replay_later hact hs), hplace, hmasks, Threads.replay_later hact ht, hasserted⟩

end SudoOS.Sigsuspend
