import SudoOS.Lib.TransitionSystem
import SudoOS.Theorems.UserMemory

/-! Signal frames and nested handlers. A frame that a delivery puts on the user stack is read back by `rt_sigreturn`. -/

namespace SudoOS

namespace UserMemory

variable {memory later : UserMemory}

theorem copyWordsFromUser_copyWordsToUser {address : Word} {words : List Word}
    (h : memory.copyWordsToUser address words = some later)
    (hread : ∀ i < words.length * 8, memory.readable (address.toNat + i) = true) :
    later.copyWordsFromUser address words.length = some words := by
  have hlength : (LittleEndian.encode 8 (words.map BitVec.toNat)).length = words.length * 8 := by
    rw [LittleEndian.length_encode, List.length_map]
  have hcopy := copyFromUser_copyToUser h (by rwa [hlength])
  have hbound : ∀ v ∈ words.map BitVec.toNat, v < 256 ^ 8 := by
    intro v hv
    obtain ⟨w, -, rfl⟩ := List.mem_map.1 hv
    exact w.isLt
  have hdecode := LittleEndian.decode_encode hbound
  rw [List.length_map] at hdecode
  rw [hlength] at hcopy
  rw [copyWordsFromUser, hcopy, Option.map_some, hdecode, List.map_map]
  have hword (w : Word) : BitVec.ofNat 64 w.toNat = w := by simp
  exact congrArg some ((List.map_congr_left fun w _ => hword w).trans (List.map_id _))

def Sound (memory : UserMemory) : Prop := ∀ {a}, memory.writable a = true → memory.readable a = true

def SameFrame (memory later : UserMemory) (base : Word) : Prop :=
  ∀ i < UserSignalFrame.size, later.bytes (base.toNat + i) = memory.bytes (base.toNat + i) ∧
    later.readable (base.toNat + i) = memory.readable (base.toNat + i)

theorem SameFrame.copyWordsFromUser {base : Word} (h : SameFrame memory later base) :
    later.copyWordsFromUser base 42 = memory.copyWordsFromUser base 42 := by
  have hread : ((List.range (42 * 8)).all fun i => later.readable (base.toNat + i)) =
      (List.range (42 * 8)).all fun i => memory.readable (base.toNat + i) := by
    rw [Bool.eq_iff_iff, List.all_eq_true, List.all_eq_true]
    exact forall₂_congr fun i hi => by rw [(h i (List.mem_range.1 hi)).2]
  have hbytes : ((List.range (42 * 8)).map fun i => later.bytes (base.toNat + i)) =
      (List.range (42 * 8)).map fun i => memory.bytes (base.toNat + i) :=
    List.map_congr_left fun i hi => (h i (List.mem_range.1 hi)).1
  rw [UserMemory.copyWordsFromUser, UserMemory.copyWordsFromUser, copyFromUser, copyFromUser, hread, hbytes]

end UserMemory

theorem TrapFrame.ofWords_words (frame : TrapFrame) : ofWords frame.words = frame := by
  obtain ⟨gpr, sstatus, sepc, scause, stval, guard, padding⟩ := frame
  have hlength : gpr.toList.length = 32 := Vector.length_toList
  have hgpr : (Vector.ofFn fun i : Fin 32 => (gpr.toList ++ [sstatus, sepc, scause, stval, guard, padding]).getD i 0) =
    gpr := by
    refine Vector.ext fun i hi => ?_
    have hi' : i < gpr.toList.length := by rwa [hlength]
    rw [Vector.getElem_ofFn, List.getD_append _ _ _ _ hi', List.getD_eq_getElem _ _ hi', Vector.getElem_toList]
  have hrest (i : Nat) : (gpr.toList ++ [sstatus, sepc, scause, stval, guard, padding]).getD (32 + i) 0 =
      [sstatus, sepc, scause, stval, guard, padding].getD i 0 := by
    rw [List.getD_append_right _ _ _ _ (by omega), hlength, Nat.add_sub_cancel_left]
  exact (TrapFrame.mk.injEq ..).mpr ⟨hgpr, hrest 0, hrest 1, hrest 2, hrest 3, hrest 4, hrest 5⟩

theorem UserSignalFrame.ofWords_words (frame : UserSignalFrame) : ofWords frame.words = frame := by
  have htrap : TrapFrame.ofWords (frame.words.drop 4) = frame.trapFrame := frame.trapFrame.ofWords_words
  exact congrArg (UserSignalFrame.mk frame.magic frame.signal frame.oldMask frame.reserved) htrap

theorem SignalMasks.restoreSigsuspendMaskWithoutHandler_saved (masks : SignalMasks) :
    masks.restoreSigsuspendMaskWithoutHandler.sigsuspendSaved = noSigsuspendSavedMask := by
  unfold restoreSigsuspendMaskWithoutHandler
  split
  · rename_i saved masks' heq
    exact (Prod.mk.inj heq).2 ▸ rfl
  · rename_i masks' heq
    exact (Prod.mk.inj heq).2 ▸ rfl

namespace Caller

variable {caller later : Caller} {frame next : TrapFrame}

def restoreMask (caller : Caller) : Word := caller.masks.takeSigsuspendSavedMask.1.getD caller.masks.blocked

structure Installed (caller : Caller) (frame next : TrapFrame) (later : Caller) : Prop where
  below : next.stackPointer.toNat + UserSignalFrame.size ≤ frame.stackPointer.toNat
  pointer : signalStackPointer frame = some next.stackPointer
  stored : caller.memory.Sound → ∃ signal,
    readSignalFrame later.memory next.stackPointer = .ok ⟨signalFrameMagic, signal, caller.restoreMask, 0, frame⟩
  bytes : ∀ {a}, a < next.stackPointer.toNat ∨ next.stackPointer.toNat + UserSignalFrame.size ≤ a →
    later.memory.bytes a = caller.memory.bytes a
  readable : later.memory.readable = caller.memory.readable
  writable : later.memory.writable = caller.memory.writable
  saved : later.masks.sigsuspendSaved = noSigsuspendSavedMask

theorem signalStackPointer_below {signalSp : Word} (h : signalStackPointer frame = some signalSp) :
    signalSp.toNat + UserSignalFrame.size ≤ frame.stackPointer.toNat := by
  unfold signalStackPointer at h
  split at h
  · rename_i hsize
    cases h
    have hlt := frame.stackPointer.isLt
    rw [BitVec.toNat_ofNat]
    omega
  · cases h

theorem readSignalFrame_of_words {memory : UserMemory} {base : Word} {stored : UserSignalFrame}
    (h : memory.copyWordsFromUser base 42 = some stored.words) (hmagic : stored.magic = signalFrameMagic) :
    readSignalFrame memory base = .ok stored := by
  unfold readSignalFrame
  rw [h]
  show (if (UserSignalFrame.ofWords stored.words).magic = signalFrameMagic then
    Except.ok (UserSignalFrame.ofWords stored.words) else .error Errno.einval) = _
  rw [UserSignalFrame.ofWords_words, if_pos hmagic]

theorem installSignalFrame_installed {signal : Nat} {action : KernelSigAction} {handler : Word}
    (h : installSignalFrame caller frame signal action handler = (some next, later)) :
      Installed caller frame next later := by
  simp only [installSignalFrame] at h
  split at h
  · cases h
  split at h
  · cases h
  split at h
  · cases h
  rename_i signalSp hsp _ memory hcopy
  obtain ⟨hnext, rfl⟩ := Prod.mk.inj h
  cases hnext
  have hlength (found : UserSignalFrame) : found.words.length = 42 := by
    simp [UserSignalFrame.words, TrapFrame.words]
  have hencoded (found : UserSignalFrame) :
      (LittleEndian.encode 8 (found.words.map BitVec.toNat)).length = UserSignalFrame.size := by
    rw [LittleEndian.length_encode, List.length_map, hlength]
    rfl
  have hnextSp (signal handler restorer : Word) :
      (frame.setSignalHandlerFrame signalSp signal handler restorer).stackPointer = signalSp := by
    simp [TrapFrame.stackPointer, TrapFrame.setSignalHandlerFrame]
  obtain ⟨hreadable, hwritable⟩ := UserMemory.rights_copyToUser hcopy
  refine ⟨?_, ?_, ?_, ?_, hreadable, hwritable, rfl⟩
  · rw [hnextSp]
    exact signalStackPointer_below hsp
  · rw [hnextSp]
    exact hsp
  · intro hsound
    rw [hnextSp]
    have hread : ∀ i < 42 * 8, caller.memory.readable (signalSp.toNat + i) = true := by
      intro i hi
      refine hsound (UserMemory.writable_of_copyToUser hcopy ?_)
      rw [hencoded]
      exact hi
    have hcopied := UserMemory.copyWordsFromUser_copyWordsToUser hcopy (by rw [hlength]; exact hread)
    rw [hlength] at hcopied
    exact ⟨BitVec.ofNat 64 signal, readSignalFrame_of_words hcopied rfl⟩
  · intro a ha
    rw [hnextSp] at ha
    refine UserMemory.bytes_copyToUser hcopy ?_
    rwa [hencoded]

def caught (caller : Caller) : Option (Nat × KernelSigAction × SignalState) :=
  match caller.signals.takeUnblocked caller.masks.blocked with
  | none => none
  | some (signal, signals) =>
    let action := (signals.action signal).getD .default
    if action.handler = sigDfl ∨ action.handler = sigIgn then none else some (signal, action, signals)

theorem taken_of_caught (h : caller.caught.isSome = true) : (caller.signals.takeUnblocked caller.masks.blocked).isSome =
    true := by
  unfold caught at h
  cases htake : caller.signals.takeUnblocked caller.masks.blocked with
  | none =>
    rw [htake] at h
    cases h
  | some _ => rfl

theorem deliverPendingSignal_caught {signal : Nat} {action : KernelSigAction} {signals : SignalState}
    (h : caller.caught = some (signal, action, signals))
    (hdeliver : caller.deliverPendingSignal frame = (.resume next, later)) :
    installSignalFrame { caller with signals } frame signal action action.handler = (some next, later) := by
  simp only [caught] at h
  split at h
  · cases h
  · rename_i taken remaining htake
    split_ifs at h with hend
    cases h
    obtain ⟨hdfl, hign⟩ := not_or.1 hend
    simp only [deliverPendingSignal, htake, if_neg hdfl, if_neg hign] at hdeliver
    split at hdeliver
    · cases hdeliver
    · rename_i hinstall
      cases hdeliver
      exact hinstall

/-- A delivery without a handler leaves the frame and the memory alone; if it takes a signal, the saved mask is back. -/
theorem deliverPendingSignal_not_caught (h : caller.caught = none)
    (hdeliver : caller.deliverPendingSignal frame = (.resume next, later)) : next = frame ∧ later.memory = caller.memory ∧
      later.masks = if (caller.signals.takeUnblocked caller.masks.blocked).isSome then
        caller.masks.restoreSigsuspendMaskWithoutHandler else caller.masks := by
  simp only [caught] at h
  split at h
  · rename_i hnone
    simp only [deliverPendingSignal, hnone] at hdeliver
    cases hdeliver
    refine ⟨rfl, rfl, ?_⟩
    rw [hnone]
    rfl
  · rename_i signal signals htake
    split_ifs at h with hend
    simp only [deliverPendingSignal, htake] at hdeliver
    rw [htake]
    split_ifs at hdeliver with hdfl hchld hign
    · cases hdeliver
      exact ⟨rfl, rfl, rfl⟩
    · cases hdeliver
    · cases hdeliver
      exact ⟨rfl, rfl, rfl⟩
    · exact absurd hend (not_or.2 ⟨hdfl, hign⟩)

end Caller

/-! ### Nested handlers -/

/-- A handler that has been entered: what it interrupted, the mask from before the delivery, or from before the
`rt_sigsuspend` that the delivery ended, and the stack pointer that it was entered with, where its signal frame lies. -/
structure Level where
  interrupted : TrapFrame
  mask : Word
  base : Word
deriving DecidableEq

/-- A thread in its handlers, the latest first. `suspended` is the mask from before an `rt_sigsuspend` that no signal has
ended. -/
structure Nest where
  frame : TrapFrame
  caller : Caller
  suspended : Option Word
  levels : List Level

namespace Nest

def Clear (frame : TrapFrame) (level : Level) : Prop :=
  frame.stackPointer.toNat ≤ level.base.toNat ∨
    ∀ signalSp, Caller.signalStackPointer frame = some signalSp → level.base.toNat + UserSignalFrame.size ≤ signalSp.toNat

inductive Step : Nest → Nest → Prop
  | run {n : Nest} {frame : TrapFrame} {caller : Caller} (sound : caller.memory.Sound)
      (saved : caller.masks.sigsuspendSaved = n.caller.masks.sigsuspendSaved)
      (kept : ∀ level ∈ n.levels, n.caller.memory.SameFrame caller.memory level.base) : Step n { n with frame, caller }
  | suspend {n : Nest} {maskAddress size temporary : Word} {caller : Caller}
      (call : n.caller.sysRtSigsuspend maskAddress size = .ok (temporary, caller)) :
      Step n { n with caller, suspended := some n.caller.masks.blocked }
  | enter {n : Nest} {next : TrapFrame} {caller : Caller} (caught : n.caller.caught.isSome = true)
      (deliver : n.caller.deliverPendingSignal n.frame = (.resume next, caller)) (clear : ∀ level ∈ n.levels,
        Clear n.frame level) :
      Step n ⟨next, caller, none, ⟨n.frame, n.suspended.getD n.caller.masks.blocked, next.stackPointer⟩ :: n.levels⟩
  | pass {n : Nest} {next : TrapFrame} {caller : Caller} (caught : n.caller.caught = none)
      (deliver : n.caller.deliverPendingSignal n.frame = (.resume next, caller)) :
      Step n ⟨next, caller, none, n.levels⟩
  | sigreturn {n : Nest} {level : Level} {rest : List Level} {frame : TrapFrame} {caller : Caller}
      (levels : n.levels = level :: rest) (pointer : n.frame.stackPointer = level.base)
      (call : n.caller.sysRtSigreturn n.frame = .ok (frame, caller)) : Step n { n with frame, caller, levels := rest }

/-- The step is no call of `rt_sigsuspend` that starts with all signals blocked, and a call of `rt_sigsuspend` does not
return before there is a signal to take. -/
structure Storable (n m : Nest) : Prop where
  mask : m.suspended ≠ some noSigsuspendSavedMask
  undisturbed : n.suspended.isSome → m.suspended = none → (n.caller.signals.takeUnblocked n.caller.masks.blocked).isSome

/-- Every run of a thread from outside of all handlers, with any registers and any mask, of steps that are `allowed`. -/
def system (allowed : Nest → Nest → Prop) : TransitionSystem Nest Unit where
  init n := n.levels = [] ∧ n.suspended = none ∧ n.caller.masks.sigsuspendSaved = noSigsuspendSavedMask ∧
    n.caller.memory.Sound
  step n _ m := Step n m ∧ allowed n m

def Level.Stored (memory : UserMemory) (level : Level) : Prop :=
  ∃ signal, Caller.readSignalFrame memory level.base = .ok ⟨signalFrameMagic, signal, level.mask, 0, level.interrupted⟩

structure Intact (n : Nest) : Prop where
  sound : n.caller.memory.Sound
  saved : n.caller.masks.sigsuspendSaved = n.suspended.getD noSigsuspendSavedMask
  storable : n.suspended ≠ some noSigsuspendSavedMask
  stored : ∀ level ∈ n.levels, Level.Stored n.caller.memory level

variable {n m : Nest} {level : Level} {memory later : UserMemory}

theorem Level.Stored.same (h : Level.Stored memory level) (hsame : memory.SameFrame later level.base) :
    Level.Stored later level := by
  unfold Level.Stored Caller.readSignalFrame at h ⊢
  rwa [hsame.copyWordsFromUser]

theorem Intact.restoreMask (h : Intact n) : n.caller.restoreMask = n.suspended.getD n.caller.masks.blocked := by
  rw [Caller.restoreMask, SignalMasks.takeSigsuspendSavedMask, h.saved]
  cases hsuspended : n.suspended with
  | none => rfl
  | some mask =>
    have hne : mask ≠ noSigsuspendSavedMask := fun heq => h.storable (heq ▸ hsuspended)
    simp only [Option.getD_some, if_neg hne]

theorem sameFrame_of_installed {caller next : Caller} {frame handler : TrapFrame}
    (h : Caller.Installed caller frame handler next) (hclear : Clear frame level) :
    caller.memory.SameFrame next.memory level.base := by
  intro i hi
  refine ⟨h.bytes ?_, congrFun h.readable _⟩
  rcases hclear with hbelow | habove
  · have := h.below
    omega
  · have := habove _ h.pointer
    omega

theorem Intact.enter {next : TrapFrame} {caller : Caller} (h : Intact n) (hcaught : n.caller.caught.isSome = true)
    (hdeliver : n.caller.deliverPendingSignal n.frame = (.resume next, caller)) (hclear : ∀ level ∈ n.levels,
      Clear n.frame level) :
    Intact ⟨next, caller, none, ⟨n.frame, n.suspended.getD n.caller.masks.blocked, next.stackPointer⟩ :: n.levels⟩ := by
  obtain ⟨⟨signal, action, signals⟩, hsome⟩ := Option.isSome_iff_exists.1 hcaught
  have hinstalled := Caller.installSignalFrame_installed (Caller.deliverPendingSignal_caught hsome hdeliver)
  obtain ⟨number, hstored⟩ := hinstalled.stored h.sound
  refine ⟨?_, hinstalled.saved, nofun, ?_⟩
  · intro a ha
    rw [hinstalled.writable] at ha
    rw [hinstalled.readable]
    exact h.sound ha
  · intro level hmem
    rcases List.mem_cons.1 hmem with rfl | hold
    · exact ⟨number, hstored.trans (by rw [← h.restoreMask]; rfl)⟩
    · have hsame := sameFrame_of_installed hinstalled (hclear level hold)
      exact (h.stored level hold).same hsame

theorem Intact.pass {next : TrapFrame} {caller : Caller} (h : Intact n) (hcaught : n.caller.caught = none)
    (hdeliver : n.caller.deliverPendingSignal n.frame = (.resume next, caller))
    (htaken : n.suspended.isSome → (n.caller.signals.takeUnblocked n.caller.masks.blocked).isSome) :
    Intact ⟨next, caller, none, n.levels⟩ := by
  obtain ⟨-, hmemory, hmasks⟩ := Caller.deliverPendingSignal_not_caught hcaught hdeliver
  refine ⟨hmemory ▸ h.sound, ?_, nofun, hmemory ▸ h.stored⟩
  rw [hmasks]
  split_ifs with hsome
  · exact SignalMasks.restoreSigsuspendMaskWithoutHandler_saved _
  · rw [h.saved, Option.not_isSome_iff_eq_none.1 fun hs => hsome (htaken hs)]

/-- The return of the latest handler finds its frame, whatever else the registers hold. -/
theorem Intact.sigreturn {rest : List Level} {frame : TrapFrame} (h : Intact n) (hlevels : n.levels = level :: rest)
    (hpointer : frame.stackPointer = level.base) : n.caller.sysRtSigreturn frame =
      .ok (level.interrupted, { n.caller with masks := n.caller.masks.setBlockedSignals level.mask }) := by
  obtain ⟨signal, hread⟩ := h.stored level (hlevels ▸ List.mem_cons_self)
  unfold Caller.sysRtSigreturn
  rw [hpointer, hread]

theorem Intact.step (h : Intact n) (hstep : Step n m) (hstorable : Storable n m) : Intact m := by
  cases hstep with
  | run sound saved kept =>
    exact ⟨sound, saved.trans h.saved, h.storable, fun level hmem => (h.stored level hmem).same (kept level hmem)⟩
  | suspend call =>
    simp only [Caller.sysRtSigsuspend] at call
    split_ifs at call
    split at call
    · cases call
    · cases call
      exact ⟨h.sound, rfl, hstorable.mask, h.stored⟩
  | enter caught deliver clear => exact h.enter caught deliver clear
  | pass caught deliver => exact h.pass caught deliver fun hsome => hstorable.undisturbed hsome rfl
  | sigreturn levels pointer call =>
    rw [h.sigreturn levels pointer] at call
    cases call
    exact ⟨h.sound, h.saved, h.storable, fun level hmem => h.stored level (levels ▸ List.mem_cons_of_mem _ hmem)⟩

theorem intact_of_reachable (h : (system Storable).Reachable n) : Intact n := by
  refine h.invariant (I := Intact) ?_ fun n _ m hn hstep => hn.step hstep.1 hstep.2
  rintro n ⟨hlevels, hsuspended, hsaved, hsound⟩
  refine ⟨hsound, by rw [hsuspended, hsaved]; rfl, by rw [hsuspended]; exact nofun, ?_⟩
  intro level hmem
  rw [hlevels] at hmem
  cases hmem

/-- At any depth: `rt_sigreturn` with the stack pointer that the latest handler was entered with gives back the registers
that it interrupted and the mask of its level, and the levels below it are as they were. -/
theorem handlers_unwind {rest : List Level} {frame : TrapFrame} (h : (system Storable).Reachable n)
    (hlevels : n.levels = level :: rest) (hpointer : frame.stackPointer = level.base) :
    n.caller.sysRtSigreturn frame =
      .ok (level.interrupted, { n.caller with masks := n.caller.masks.setBlockedSignals level.mask }) ∧
    (system Storable).Reachable ⟨level.interrupted,
      { n.caller with masks := n.caller.masks.setBlockedSignals level.mask }, n.suspended, rest⟩ := by
  have hintact := intact_of_reachable h
  have hcall := hintact.sigreturn hlevels hpointer
  refine ⟨hcall, ?_⟩
  have hstays : ∀ {m k : Nest}, m.suspended = n.suspended → k.suspended = n.suspended → Storable m k := fun hm hk =>
    ⟨hk ▸ hintact.storable, fun hsome hnone => by rw [hm, ← hk, hnone] at hsome; cases hsome⟩
  -- the registers may hold anything else when the handler returns
  have hran : (system Storable).Reachable { n with frame } := h.step (a := ())
    ⟨.run hintact.sound rfl fun level _ i _ => ⟨rfl, rfl⟩, hstays rfl rfl⟩
  exact hran.step (a := ()) ⟨.sigreturn hlevels hpointer hcall, hstays rfl rfl⟩

theorem tenthAction_lt : 9 < 64 := by decide

def suspender (mask : Word) : Nest where
  frame := ⟨(Vector.replicate 32 0).set 2 0x8000 TrapFrame.stackRegister_lt, 0, 0, 0, 0, 0, 0⟩
  caller :=
    { masks := ⟨mask, noSigsuspendSavedMask⟩
      signals := ⟨1#64 <<< 9, (Vector.replicate 64 KernelSigAction.default).set 9 ⟨0x5000, 0, 0, 0⟩ tenthAction_lt⟩
      memory := ⟨fun _ => 0, fun _ => true, fun _ => true⟩ }
  suspended := none
  levels := []

def suspendAndCatch (n : Nest) : Option Nest :=
  match n.caller.sysRtSigsuspend 0x1000 8 with
  | .error _ => none
  | .ok (_, caller) =>
    match caller.deliverPendingSignal n.frame with
    | (.resume next, later) =>
      if caller.caught.isSome then some ⟨next, later, none, [⟨n.frame, n.caller.masks.blocked, next.stackPointer⟩]⟩
      else none
    | _ => none

theorem reachable_of_suspendAndCatch {allowed : Nest → Nest → Prop} {mask : Word}
    (hsuspend : ∀ {n m : Nest}, n.suspended = none → m.suspended = some mask → allowed n m)
    (hcatch : ∀ {n m : Nest}, n.caller.caught.isSome = true → m.suspended = none → allowed n m)
    (h : suspendAndCatch (suspender mask) = some n) : (system allowed).Reachable n := by
  have hinit : (system allowed).Reachable (suspender mask) := .init ⟨rfl, rfl, rfl, id⟩
  unfold suspendAndCatch at h
  split at h
  · cases h
  · rename_i temporary caller hcall
    have hsuspended := hinit.step (a := ()) ⟨.suspend hcall, hsuspend rfl rfl⟩
    split at h
    · rename_i next later hdeliver
      split_ifs at h with hcaught
      cases h
      exact hsuspended.step (a := ()) ⟨.enter hcaught hdeliver nofun, hcatch hcaught rfl⟩
    · cases h

theorem handlers_unwind_suspended : ∃ n level, (system Storable).Reachable n ∧ n.levels = [level] ∧ level.mask = 1 ∧
    n.caller.sysRtSigreturn n.frame =
      .ok (level.interrupted, { n.caller with masks := n.caller.masks.setBlockedSignals 1 }) := by
  have hrun : (suspendAndCatch (suspender 1)).any (fun n =>
      n.levels.any fun level => decide (n.levels = [level] ∧ level.mask = 1 ∧ n.frame.stackPointer = level.base)) =
        true := by
    decide +kernel
  obtain ⟨n, hn, hend⟩ := (Option.any_eq_true _ _).1 hrun
  obtain ⟨level, -, hlevel⟩ := List.any_eq_true.1 hend
  obtain ⟨hlevels, hmask, hpointer⟩ := of_decide_eq_true hlevel
  have hreach : (system Storable).Reachable n := by
    refine reachable_of_suspendAndCatch (fun hnone hsome => ⟨?_, ?_⟩) (fun hcaught hnone => ⟨?_, fun _ _ => ?_⟩) hn
    · exact fun heq => absurd (hsome.symm.trans heq) (by decide)
    · exact fun hsuspended _ => by rw [hnone] at hsuspended; cases hsuspended
    · exact fun heq => by rw [hnone] at heq; cases heq
    · exact Caller.taken_of_caught hcaught
  exact ⟨n, level, hreach, hlevels, hmask, hmask ▸ (handlers_unwind hreach hlevels hpointer).1⟩

/-- With all signals blocked before the call, the handler comes back to the temporary mask. -/
theorem full_mask_lost : ∃ n level frame caller, (system fun _ _ => True).Reachable n ∧ n.levels = [level] ∧
    level.mask = BitVec.allOnes 64 ∧ n.frame.stackPointer = level.base ∧
    n.caller.sysRtSigreturn n.frame = .ok (frame, caller) ∧ caller.masks.blocked = 0 := by
  have hrun : (suspendAndCatch (suspender (BitVec.allOnes 64))).any (fun n =>
      (n.levels.any fun level =>
        decide (n.levels = [level] ∧ level.mask = BitVec.allOnes 64 ∧ n.frame.stackPointer = level.base)) &&
      match n.caller.sysRtSigreturn n.frame with
      | .ok (_, caller) => caller.masks.blocked == 0
      | .error _ => false) = true := by
    decide +kernel
  obtain ⟨n, hn, hend⟩ := (Option.any_eq_true _ _).1 hrun
  obtain ⟨hany, hreturn⟩ := Bool.and_eq_true_iff.1 hend
  obtain ⟨level, -, hlevel⟩ := List.any_eq_true.1 hany
  obtain ⟨hlevels, hmask, hpointer⟩ := of_decide_eq_true hlevel
  split at hreturn
  · rename_i frame caller hcall
    exact ⟨n, level, frame, caller, reachable_of_suspendAndCatch (fun _ _ => trivial) (fun _ _ => trivial) hn, hlevels,
      hmask, hpointer, hcall,
      eq_of_beq hreturn⟩
  · cases hreturn

end Nest

end SudoOS
