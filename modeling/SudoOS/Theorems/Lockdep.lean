import SudoOS.Kernel.Lockdep
import SudoOS.Lib.TransitionSystem
import SudoOS.Lib.WaitFor

/-! What the check of the lock order is worth. -/

namespace SudoOS

namespace Lockdep

open Function

variable {locks : Nat → LockInfo} {s t : LockSystem} {cpu lock : Nat}

def Phase.unrecorded : Phase → Option Nat
  | .acquired lock => some lock
  | _ => none

theorem Phase.unrecorded_eq {phase : Phase} : phase.unrecorded = some lock ↔ phase = .acquired lock := by
  cases phase <;> simp [unrecorded]

def Context.taken (c : Context) : List Nat := c.guards ++ c.phase.unrecorded.toList

def CpuLocks.contexts (c : CpuLocks) : List Context := c.current :: c.interrupted

def key (locks : Nat → LockInfo) (lock : Nat) : Nat := (locks lock).lockClass.key

def LockSystem.wants (s : LockSystem) (cpu : Nat) : Option Nat :=
  match (s.cpus cpu).current.phase with
  | .spinning lock => some lock
  | _ => none

/-- A set of CPUs each of which holds a lock that one of them is spinning for. -/
def LockSystem.CircularWait (s : LockSystem) : Prop := WaitFor.Circular s.wants fun cpu lock => s.holder lock = some cpu

/-- The CPUs take the given locks. -/
def system (locks : Nat → LockInfo) : TransitionSystem LockSystem LockOp where
  init s := s = .boot
  step s op t := s.step locks op = some t

/-- A CPU that is about to spin for a lock: no held lock on its stack has the same key or belongs to the console, the new
one does not belong to the console if there are held ones, and what an interrupted context has taken and not yet entered has
a lesser key. -/
def Strict (locks : Nat → LockInfo) (s : LockSystem) : LockOp → Prop
  | .lock cpu lock =>
    (∀ held ∈ (s.cpus cpu).stack, held.lockClass.key ≠ key locks lock ∧ held.lockClass.rank ≠ .console ∧
      (locks lock).lockClass.rank ≠ .console) ∧
    ∀ c ∈ (s.cpus cpu).interrupted, ∀ taken ∈ c.phase.unrecorded, key locks taken < key locks lock
  | _ => True

/-! ### The checks -/

theorem checkHeld_ok {new : HeldLock} {stack : List HeldLock} (h : checkHeld new stack = .ok ()) (held : HeldLock)
    (hmem : held ∈ stack) :
    held.lockClass.rank = .console ∨ new.lockClass.rank = .console ∨ held.lockClass.key ≤ new.lockClass.key := by
  induction stack with
  | nil => cases hmem
  | cons first rest ih =>
    unfold checkHeld at h
    split_ifs at h with _ hconsole hkey
    · rcases List.mem_cons.1 hmem with rfl | hmem
      · exact hconsole.imp_right .inl
      · exact ih h hmem
    · rcases List.mem_cons.1 hmem with rfl | hmem
      · exact .inr (.inr hkey)
      · exact ih h hmem

theorem ok_of_toBool {ε : Type} {x : Except ε Unit} (h : x.toBool = true) : x = .ok () := by
  cases x with
  | ok a => rfl
  | error e => cases h

theorem heldLock_key : (heldLock locks lock).lockClass.key = key locks lock := rfl

/-- A lock that passes the check and meets the condition has a greater key than everything that its CPU has entered. -/
theorem mayLock_key (h : mayLock locks s cpu lock = true) (hstrict : Strict locks s (.lock cpu lock)) (held : HeldLock)
    (hmem : held ∈ (s.cpus cpu).stack) : held.lockClass.key < key locks lock := by
  obtain ⟨hkey, hconsole, hconsole'⟩ := hstrict.1 held hmem
  have hbefore := ok_of_toBool (Bool.and_eq_true_iff.1 h).2
  unfold beforeLock at hbefore
  split_ifs at hbefore
  have hle := ((checkHeld_ok hbefore held hmem).resolve_left hconsole).resolve_left hconsole'
  exact lt_of_le_of_ne hle hkey

/-! ### The invariant -/

def Ordered (locks : Nat → LockInfo) : List Context → Prop
  | [] => True
  | c :: rest =>
    (∀ lock, c.phase = .spinning lock → ∀ held ∈ (c :: rest).flatMap (·.taken), key locks held < key locks lock) ∧
    Ordered locks rest

def CpuLocks.taken (c : CpuLocks) : List Nat := c.contexts.flatMap (·.taken)

def CpuLocks.guards (c : CpuLocks) : List Nat := c.interrupted.reverse.flatMap (·.guards) ++ c.current.guards

structure CpuLocks.Sound (locks : Nat → LockInfo) (c : CpuLocks) : Prop where
  stack : c.stack = c.guards.map (heldLock locks)
  nodup : c.taken.Nodup
  ordered : Ordered locks c.contexts

structure Inv (locks : Nat → LockInfo) (s : LockSystem) : Prop where
  cpus : ∀ cpu, (s.cpus cpu).Sound locks
  holder : ∀ cpu lock, s.holder lock = some cpu ↔ lock ∈ (s.cpus cpu).taken

theorem Inv.boot : Inv locks .boot where
  cpus _ := ⟨rfl, List.nodup_nil, fun _ heq => (nomatch heq), trivial⟩
  holder _ _ := ⟨fun heq => (nomatch heq), fun hmem => (nomatch hmem)⟩

/-- Under the invariant nobody waits in a circle. -/
theorem Inv.not_circular (h : Inv locks s) : ¬ s.CircularWait := by
  refine WaitFor.not_circular (key locks) fun cpu lock held hwants hholds => ?_
  have hphase : (s.cpus cpu).current.phase = .spinning lock := by
    unfold LockSystem.wants at hwants
    split at hwants
    · rename_i lock' heq
      cases hwants
      exact heq
    · cases hwants
  exact (h.cpus cpu).ordered.1 lock hphase held ((h.holder cpu held).1 hholds)

theorem Inv.putCpu {state : CpuLocks} {holder : Nat → Option Nat} (h : Inv locks s)
    (hcpus : t.cpus = update s.cpus cpu state)
    (hholder : t.holder = holder) (hstate : state.Sound locks) (hself : ∀ lock, holder lock = some cpu ↔ lock ∈ state.taken)
    (hother : ∀ c lock, c ≠ cpu → (holder lock = some c ↔ s.holder lock = some c)) : Inv locks t := by
  refine ⟨fun c => ?_, fun c lock => ?_⟩ <;> rw [hcpus] <;> by_cases hc : c = cpu
  · rw [hc, update_self]
    exact hstate
  · rw [update_of_ne hc]
    exact h.cpus c
  · rw [hc, update_self, hholder]
    exact hself lock
  · rw [update_of_ne hc, hholder, hother c lock hc]
    exact h.holder c lock

theorem Inv.putCpu_same {state : CpuLocks} (h : Inv locks s) (hcpus : t.cpus = update s.cpus cpu state)
    (hholder : t.holder = s.holder)
    (hstate : state.Sound locks) (htaken : state.taken = (s.cpus cpu).taken) : Inv locks t := by
  refine h.putCpu hcpus hholder hstate (fun lock => ?_) fun _ _ _ => Iff.rfl
  rw [htaken]
  exact h.holder cpu lock

/-! ### The steps -/

theorem CpuLocks.taken_eq (c : CpuLocks) : c.taken = c.current.taken ++ c.interrupted.flatMap (·.taken) := rfl

theorem Context.mem_taken {c : Context} : lock ∈ c.taken ↔ lock ∈ c.guards ∨ c.phase = .acquired lock := by
  rw [taken, List.mem_append, Option.mem_toList, Phase.unrecorded_eq]

theorem CpuLocks.Sound.mem_taken {c : CpuLocks} (h : c.Sound locks) (hphase : c.current.phase = .running)
    (hmem : lock ∈ c.taken) : heldLock locks lock ∈ c.stack ∨ ∃ ctx ∈ c.interrupted, ctx.phase = .acquired lock := by
  obtain ⟨ctx, hctx, hlock⟩ := List.mem_flatMap.1 hmem
  rw [h.stack]
  rcases List.mem_cons.1 hctx with rfl | hctx
  · rcases Context.mem_taken.1 hlock with hguard | hacquired
    · exact .inl (List.mem_map_of_mem (List.mem_append_right _ hguard))
    · rw [hphase] at hacquired
      cases hacquired
  · rcases Context.mem_taken.1 hlock with hguard | hacquired
    · refine .inl (List.mem_map_of_mem (List.mem_append_left _ (List.mem_flatMap.2 ⟨ctx, ?_, hguard⟩)))
      exact List.mem_reverse.2 hctx
    · exact .inr ⟨ctx, hctx, hacquired⟩

/-- A CPU that passes the check under the condition begins to spin. -/
theorem Inv.spin (h : Inv locks s) (hmay : mayLock locks s cpu lock = true) (hstrict : Strict locks s (.lock cpu lock)) :
    Inv locks (s.setPhase cpu (.spinning lock)) := by
  have hsound := h.cpus cpu
  have hphase : (s.cpus cpu).current.phase = .running := by
    unfold mayLock at hmay
    simp only [Bool.and_eq_true, decide_eq_true_eq] at hmay
    exact hmay.1.1
  have htaken : ({ (s.cpus cpu).current with phase := .spinning lock } : Context).taken = (s.cpus cpu).current.taken := by
    rw [Context.taken, Context.taken, hphase]
    rfl
  have htaken' : ({ s.cpus cpu with current := { (s.cpus cpu).current with phase := .spinning lock } } : CpuLocks).taken =
      (s.cpus cpu).taken := by
    rw [CpuLocks.taken_eq, CpuLocks.taken_eq, htaken]
  refine h.putCpu_same rfl rfl ⟨hsound.stack, htaken' ▸ hsound.nodup, fun lock' hlock' held hheld => ?_,
    hsound.ordered.2⟩ htaken'
  cases hlock'
  have hmem : held ∈ (s.cpus cpu).taken := by
    rw [← htaken']
    exact hheld
  rcases hsound.mem_taken hphase hmem with hstack | ⟨ctx, hctx, hacquired⟩
  · rw [← heldLock_key]
    exact mayLock_key hmay hstrict _ hstack
  · exact hstrict.2 ctx hctx held (Phase.unrecorded_eq.2 hacquired)

theorem Inv.take (h : Inv locks s) (hfree : s.holder lock = none) (hphase : ∀ l, (s.cpus cpu).current.phase ≠ .acquired l) :
    Inv locks { s.setPhase cpu (.acquired lock) with holder := update s.holder lock (some cpu) } := by
  have hsound := h.cpus cpu
  have hnot : lock ∉ (s.cpus cpu).taken := fun hmem => by
    rw [← h.holder, hfree] at hmem
    cases hmem
  have hguards : (s.cpus cpu).current.taken = (s.cpus cpu).current.guards := by
    have hnone : (s.cpus cpu).current.phase.unrecorded = none :=
      Option.eq_none_iff_forall_not_mem.2 fun l hl => hphase l (Phase.unrecorded_eq.1 hl)
    rw [Context.taken, hnone]
    exact List.append_nil _
  have htaken : ({ s.cpus cpu with current := { (s.cpus cpu).current with phase := .acquired lock } } : CpuLocks).taken =
      (s.cpus cpu).current.taken ++ lock :: (s.cpus cpu).interrupted.flatMap (·.taken) := by
    rw [CpuLocks.taken_eq, Context.taken, hguards, List.append_assoc]
    rfl
  have hmem (l : Nat) : l ∈ (s.cpus cpu).current.taken ++ lock :: (s.cpus cpu).interrupted.flatMap (·.taken) ↔
      l = lock ∨ l ∈ (s.cpus cpu).taken := by
    rw [CpuLocks.taken_eq, List.mem_append, List.mem_cons, List.mem_append]
    exact or_left_comm
  refine h.putCpu rfl (show _ = update s.holder lock (some cpu) from rfl) ⟨hsound.stack, ?_, fun _ heq => (nomatch heq),
    hsound.ordered.2⟩ (fun l => ?_) fun c l hc => ?_
  · rw [htaken, List.nodup_middle, List.nodup_cons]
    exact ⟨hnot, hsound.nodup⟩
  · rw [htaken, hmem, ← h.holder]
    by_cases hl : l = lock
    · rw [hl, update_self]
      exact iff_of_true rfl (.inl rfl)
    · rw [update_of_ne hl]
      exact (or_iff_right hl).symm
  · by_cases hl : l = lock
    · rw [hl, hfree, update_self]
      exact iff_of_false (fun heq => hc (Option.some.inj heq).symm) fun heq => (nomatch heq)
    · rw [update_of_ne hl]

theorem Inv.record {stack : List HeldLock} (h : Inv locks s) (hphase : (s.cpus cpu).current.phase = .acquired lock)
    (hstack : afterLock (heldLock locks lock) (s.cpus cpu).stack = .ok stack) :
    Inv locks { s.putCpu cpu { s.cpus cpu with
        stack := stack
        current := { guards := (s.cpus cpu).current.guards ++ [lock], phase := .running } } with
      owner := update s.owner lock (some cpu) } := by
  have hsound := h.cpus cpu
  have htaken : ({ s.cpus cpu with
        stack := stack
        current := { guards := (s.cpus cpu).current.guards ++ [lock], phase := .running } } : CpuLocks).taken =
          (s.cpus cpu).taken := by
    rw [CpuLocks.taken_eq, CpuLocks.taken_eq, Context.taken, Context.taken, hphase]
    exact congrArg (· ++ _) (List.append_nil _)
  refine h.putCpu_same rfl rfl ⟨?_, htaken ▸ hsound.nodup, fun _ heq => (nomatch heq), hsound.ordered.2⟩ htaken
  unfold afterLock at hstack
  split_ifs at hstack
  cases hstack
  show (s.cpus cpu).stack ++ [heldLock locks lock] =
    ((s.cpus cpu).interrupted.reverse.flatMap (·.guards) ++ ((s.cpus cpu).current.guards ++ [lock])).map (heldLock locks)
  rw [hsound.stack, CpuLocks.guards, ← List.append_assoc]
  rw [List.map_append, List.map_append, List.map_append]
  rfl

theorem CpuLocks.Sound.last {c : CpuLocks} {stack : List HeldLock} (h : c.Sound locks) (hmem : lock ∈ c.current.guards)
    (hstack : beforeUnlock (heldLock locks lock) c.stack = .ok stack) :
    ∃ guards, c.current.guards = guards ++ [lock] ∧
      stack = (c.interrupted.reverse.flatMap (·.guards) ++ guards).map (heldLock locks) := by
  obtain ⟨guards, last, hguards⟩ : ∃ guards last, c.current.guards = guards ++ [last] :=
    ⟨_, _, (List.dropLast_append_getLast (List.ne_nil_of_mem hmem)).symm⟩
  have hall : c.stack = (c.interrupted.reverse.flatMap (·.guards) ++ guards).map (heldLock locks) ++
    [heldLock locks last] := by
    rw [h.stack, CpuLocks.guards, hguards, ← List.append_assoc, List.map_append, List.map_singleton]
  unfold beforeUnlock at hstack
  rw [hall, List.getLast?_concat, List.dropLast_concat] at hstack
  dsimp only at hstack
  split_ifs at hstack with hinstance
  cases hstack
  have : last = lock := not_not.1 hinstance
  exact ⟨guards, this ▸ hguards, rfl⟩

theorem Inv.release {stack : List HeldLock} (h : Inv locks s) (hphase : (s.cpus cpu).current.phase = .running)
    (hmem : lock ∈ (s.cpus cpu).current.guards)
      (hstack : beforeUnlock (heldLock locks lock) (s.cpus cpu).stack = .ok stack) :
    Inv locks { s.putCpu cpu { s.cpus cpu with
        stack := stack
        current := { (s.cpus cpu).current with guards := (s.cpus cpu).current.guards.erase lock } } with
      owner := update s.owner lock none
      holder := update s.holder lock none } := by
  have hsound := h.cpus cpu
  obtain ⟨guards, hguards, rfl⟩ := hsound.last hmem hstack
  have hnodup := hsound.nodup
  have hcurrent : (s.cpus cpu).current.taken = guards ++ [lock] := by
    rw [Context.taken, hphase, hguards]
    exact List.append_nil _
  rw [CpuLocks.taken_eq, hcurrent, List.append_assoc, List.singleton_append, List.nodup_middle, List.nodup_cons] at hnodup
  have herase : (s.cpus cpu).current.guards.erase lock = guards := by
    rw [hguards, List.erase_append_right _ fun hmem' => hnodup.1 (List.mem_append_left _ hmem'), List.erase_cons_head,
      List.append_nil]
  have htaken : ({ s.cpus cpu with
        stack := ((s.cpus cpu).interrupted.reverse.flatMap (·.guards) ++ guards).map (heldLock locks)
        current := { (s.cpus cpu).current with guards := (s.cpus cpu).current.guards.erase lock } } : CpuLocks).taken =
      guards ++ (s.cpus cpu).interrupted.flatMap (·.taken) := by
    rw [CpuLocks.taken_eq, Context.taken, herase, hphase]
    exact congrArg (· ++ _) (List.append_nil _)
  have hmem' (l : Nat) : l ∈ (s.cpus cpu).taken ↔ l = lock ∨ l ∈ guards ++ (s.cpus cpu).interrupted.flatMap (·.taken) := by
    rw [CpuLocks.taken_eq, hcurrent, List.append_assoc, List.singleton_append, List.mem_append, List.mem_cons,
      List.mem_append]
    exact or_left_comm
  refine h.putCpu rfl (show _ = update s.holder lock none from rfl) ⟨?_, htaken ▸ hnodup.2, fun l heq => ?_,
    hsound.ordered.2⟩ (fun l => ?_) fun c l hc => ?_
  · rw [CpuLocks.guards, herase]
  · cases hphase.symm.trans heq
  · rw [htaken]
    by_cases hl : l = lock
    · rw [hl, update_self]
      exact iff_of_false (fun heq => (nomatch heq)) hnodup.1
    · rw [update_of_ne hl, h.holder, hmem']
      exact or_iff_right hl
  · by_cases hl : l = lock
    · rw [hl, update_self]
      refine iff_of_false (fun heq => (nomatch heq)) fun heq => hc ?_
      have hself := (h.holder cpu lock).2 ((hmem' lock).2 (.inl rfl))
      exact Option.some.inj (heq.symm.trans hself)
    · rw [update_of_ne hl]

theorem Inv.interrupt (h : Inv locks s) :
    Inv locks (s.putCpu cpu { s.cpus cpu with
      current := { guards := [], phase := .running }
      interrupted := (s.cpus cpu).current :: (s.cpus cpu).interrupted }) := by
  have hsound := h.cpus cpu
  refine h.putCpu_same rfl rfl ⟨?_, hsound.nodup, fun _ heq => (nomatch heq), hsound.ordered⟩ rfl
  rw [hsound.stack, CpuLocks.guards, CpuLocks.guards, List.reverse_cons, List.flatMap_append, List.append_nil]
  exact congrArg (List.map _) (congrArg (_ ++ ·) (List.append_nil _).symm)

theorem Inv.interruptReturn {outer : Context} {rest : List Context} (h : Inv locks s)
    (hinterrupted : (s.cpus cpu).interrupted = outer :: rest)
    (hcurrent : (s.cpus cpu).current = { guards := [], phase := .running }) :
    Inv locks (s.putCpu cpu { s.cpus cpu with current := outer, interrupted := rest }) := by
  have hsound := h.cpus cpu
  have hcontexts : (s.cpus cpu).contexts = { guards := [], phase := .running } :: outer :: rest := by
    rw [CpuLocks.contexts, hcurrent, hinterrupted]
  have htaken : (s.cpus cpu).taken = (outer :: rest).flatMap (·.taken) := by
    rw [CpuLocks.taken, hcontexts]
    rfl
  have hnodup := hsound.nodup
  rw [htaken] at hnodup
  refine h.putCpu_same rfl rfl ⟨?_, hnodup, ?_⟩ htaken.symm
  · rw [hsound.stack, CpuLocks.guards, CpuLocks.guards, hcurrent, hinterrupted, List.reverse_cons, List.flatMap_append,
      List.append_nil]
    exact congrArg (List.map _) (congrArg (_ ++ ·) (List.append_nil _))
  · have := hsound.ordered
    rw [hcontexts] at this
    exact this.2

theorem Inv.step {op : LockOp} (h : Inv locks s) (hstep : s.step locks op = some t) (hstrict : Strict locks s op) :
    Inv locks t := by
  cases op with
  | lock cpu lock =>
    simp only [LockSystem.step] at hstep
    split_ifs at hstep with hmay
    cases hstep
    exact h.spin hmay hstrict
  | tryLock cpu lock =>
    simp only [LockSystem.step] at hstep
    split_ifs at hstep with _ hmay hfree <;> cases hstep
    · exact h
    · refine h.take hfree fun l heq => ?_
      unfold mayLock at hmay
      simp only [Bool.and_eq_true, decide_eq_true_eq] at hmay
      cases hmay.1.1.symm.trans heq
    · exact h
  | acquire cpu =>
    simp only [LockSystem.step] at hstep
    split at hstep
    · rename_i lock hphase
      split_ifs at hstep with hfree
      cases hstep
      exact h.take hfree fun l heq => by cases hphase.symm.trans heq
    · cases hstep
  | record cpu =>
    simp only [LockSystem.step] at hstep
    split at hstep
    · rename_i lock hphase
      split at hstep
      · rename_i stack hstack
        cases hstep
        exact h.record hphase hstack
      · cases hstep
    · cases hstep
  | unlock cpu lock =>
    simp only [LockSystem.step] at hstep
    split_ifs at hstep with hguard
    split at hstep
    · rename_i stack hstack
      cases hstep
      exact h.release hguard.1 hguard.2 hstack
    · cases hstep
  | interrupt cpu =>
    simp only [LockSystem.step] at hstep
    split_ifs at hstep
    cases hstep
    exact h.interrupt
  | interruptReturn cpu =>
    simp only [LockSystem.step] at hstep
    split at hstep
    · rename_i outer rest hinterrupted
      split_ifs at hstep with hcurrent
      cases hstep
      exact h.interruptReturn hinterrupted hcurrent
    · cases hstep

/-- In a run in which every CPU that begins to spin meets the condition, no state has a circular wait. -/
theorem strict_runs_never_circular (h : ((system locks).restrict (Strict locks)).Reachable s) : ¬ s.CircularWait := by
  have hinv : Inv locks s := h.invariant (fun s hs => hs ▸ Inv.boot) fun s op t hinv hstep => hinv.step hstep.1 hstep.2
  exact hinv.not_circular

def someLocks : Nat → LockInfo
  | 0 => { lockClass := ⟨"scheduler", .scheduler, 1⟩, irq := true }
  | 1 => { lockClass := ⟨"task_wait_queue", .waitQueue, 1⟩, irq := true }
  | _ => { lockClass := ⟨"tlb_shootdown_serializer", .crossCpu, 2⟩, irq := false }

instance (locks : Nat → LockInfo) (s : LockSystem) (op : LockOp) : Decidable (Strict locks s op) :=
  match op with
  | .lock _ _ => inferInstanceAs (Decidable (_ ∧ _))
  | .tryLock _ _ | .acquire _ | .record _ | .unlock _ _ | .interrupt _ | .interruptReturn _ =>
    inferInstanceAs (Decidable True)

def strictStep (locks : Nat → LockInfo) (s : LockSystem) (op : LockOp) : Option LockSystem :=
  if Strict locks s op then s.step locks op else none

theorem strictStep_step {op : LockOp} (h : strictStep locks s op = some t) :
    ((system locks).restrict (Strict locks)).step s op t := by
  unfold strictStep at h
  split_ifs at h with hstrict
  exact ⟨h, hstrict⟩

def nesting : List LockOp :=
  [.lock 0 0, .acquire 0, .record 0, .lock 1 1, .acquire 1, .record 1, .lock 0 1, .lock 2 2, .interrupt 2, .lock 2 0]

theorem strict_runs_never_circular_nested : ∃ s : LockSystem, s.wants 0 = some 1 ∧ s.holder 1 = some 1 ∧
    s.wants 2 = some 0 ∧ s.holder 0 = some 0 ∧ ¬ s.CircularWait := by
  have hplay : ((TransitionSystem.play (strictStep someLocks) .boot nesting).any fun s =>
      decide (s.wants 0 = some 1 ∧ s.holder 1 = some 1 ∧ s.wants 2 = some 0 ∧ s.holder 0 = some 0)) = true := by
        decide +kernel
  obtain ⟨s, hreachable, hwants, hholder, hwants', hholder'⟩ :=
    TransitionSystem.Reachable.of_play (.init rfl) strictStep_step hplay
  exact ⟨s, hwants, hholder, hwants', hholder', strict_runs_never_circular hreachable⟩

/-! Two wait queues, whose locks have one class. Each CPU takes one of them and then asks for the other. -/

def twoQueues (_ : Nat) : LockInfo := { lockClass := ⟨"task_wait_queue", .waitQueue, 1⟩, irq := true }

def crossing : List LockOp :=
  [.lock 0 1, .acquire 0, .record 0, .lock 1 2, .acquire 1, .record 1, .lock 0 2, .lock 1 1]

theorem equal_keys_deadlock : ∃ s, (system twoQueues).Reachable s ∧ s.CircularWait := by
  have hplay : ((TransitionSystem.play (LockSystem.step twoQueues) .boot crossing).any fun s =>
      decide (s.wants 0 = some 2 ∧ s.wants 1 = some 1 ∧ s.holder 1 = some 0 ∧ s.holder 2 = some 1)) = true := by
        decide +kernel
  obtain ⟨s, hreachable, hwants0, hwants1, hholder1, hholder2⟩ :=
    TransitionSystem.Reachable.of_play (m := system twoQueues) (.init rfl) id hplay
  refine ⟨s, hreachable, {0, 1}, by decide, ?_⟩
  intro c hc
  rcases Finset.mem_insert.1 hc with rfl | hc
  · exact ⟨1, by decide, 1, hwants1, hholder1⟩
  · rw [Finset.mem_singleton.1 hc]
    exact ⟨0, by decide, 2, hwants0, hholder2⟩

end Lockdep

end SudoOS
