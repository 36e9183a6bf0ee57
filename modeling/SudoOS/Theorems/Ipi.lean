import SudoOS.Kernel.Ipi

/-! No message between CPUs is lost, although a sender that finds messages pending does not ring. -/

namespace SudoOS

open TransitionSystem

namespace Ipi

variable {s t : Threads.State Shared Agent Phase} {x y : Shared} {k k' : Phase} {i : Agent} {cpu task : Nat}
  {message : IpiMessage}

section fields
variable {mailbox : IpiMailbox} {pending : Bool}

@[simp] theorem mailboxes_setMailbox :
    (x.setMailbox cpu mailbox).mailboxes = Function.update x.mailboxes cpu mailbox := rfl

@[simp] theorem doorbells_setDoorbell :
    (x.setDoorbell cpu pending).doorbells = Function.update x.doorbells cpu pending := rfl

end fields

/-! ### What one step can do -/

theorem sender_act (h : threads.act (.sender task) x k y k') :
    (∃ cpu message, k = .idle ∧ y = x.setMailbox cpu ((x.mailboxes cpu).publish message) ∧
      k' = if ringsDoorbell (x.mailboxes cpu) message then .ringing cpu else .idle) ∨
    (∃ cpu, k = .ringing cpu ∧ y = x.setDoorbell cpu true ∧ k' = .idle) ∨
    y = { x with panicked := true } ∧ k' = k := by
  obtain ⟨input, h⟩ := h
  unfold step at h
  split at h
  · cases h
  simp only [senderStep] at h
  split at h
  · split at h
    · cases h
      exact .inl ⟨_, _, rfl, rfl, rfl⟩
    · cases h
      exact .inr (.inr ⟨rfl, rfl⟩)
  · split at h
    · cases h
      exact .inr (.inl ⟨_, rfl, rfl, rfl⟩)
    · cases h
      exact .inr (.inr ⟨rfl, rfl⟩)
  · cases h

inductive Receives (cpu : Nat) (x : Shared) : Phase → Shared → Phase → Prop
  | interrupt : x.doorbells cpu = true → Receives cpu x .quiet x .acknowledging
  | acknowledge : Receives cpu x .acknowledging (x.setDoorbell cpu false) .draining
  | leave : (x.mailboxes cpu).isEmpty = true → Receives cpu x .draining x .quiet
  | take : Receives cpu x .draining (x.setMailbox cpu .empty) (.handling (x.mailboxes cpu).messages)
  | handle {message : IpiMessage} {rest : List IpiMessage} :
    Receives cpu x (.handling (message :: rest)) { x with handled := (cpu, message) :: x.handled } (.handling rest)
  | again : Receives cpu x (.handling []) x .draining

theorem receiver_act (h : threads.act (.receiver cpu) x k y k') : Receives cpu x k y k' := by
  obtain ⟨input, h⟩ := h
  unfold step at h
  split at h
  · cases h
  simp only [receiverStep] at h
  split at h
  · split at h
    · cases h
      exact .interrupt ‹_›
    · cases h
  · cases h
    exact .acknowledge
  · split at h
    · cases h
      exact .leave ‹_›
    · cases h
      exact .take
  · cases h
    exact .handle
  · cases h
    exact .again
  · cases h

namespace Receives

theorem mailboxes (h : Receives cpu x k y k') (hk : k ≠ .draining) : y.mailboxes = x.mailboxes := by
  cases h with
  | take => exact absurd rfl hk
  | _ => rfl

theorem of_quiet (h : Receives cpu x .quiet y k') : k' = .acknowledging := by
  cases h
  rfl

theorem of_acknowledging (h : Receives cpu x .acknowledging y k') : k' = .draining := by
  cases h
  rfl

theorem of_handling_nil (h : Receives cpu x (.handling []) y k') : k' = .draining := by
  cases h
  rfl

theorem of_handling_cons {rest : List IpiMessage} (h : Receives cpu x (.handling (message :: rest)) y k') :
    k' = .handling rest ∧ y.handled = (cpu, message) :: x.handled := by
  cases h
  exact ⟨rfl, rfl⟩

end Receives

/-! ### Mailboxes -/

theorem exists_of_not_isEmpty {mailbox : IpiMailbox} (h : ¬ mailbox.isEmpty = true) : ∃ message,
    mailbox message = true := by
  by_contra hno
  have hall (message : IpiMessage) : mailbox message = false := by simpa using fun hm => hno ⟨message, hm⟩
  exact h (by simp [IpiMailbox.isEmpty, hall])

theorem not_of_isEmpty {mailbox : IpiMailbox} (h : mailbox.isEmpty = true) : ¬ mailbox message = true := by
  simp only [IpiMailbox.isEmpty, Bool.and_eq_true, Bool.not_eq_true'] at h
  cases message <;> simp [h]

theorem mem_messages {mailbox : IpiMailbox} (h : mailbox message = true) : message ∈ mailbox.messages :=
  List.mem_filter.2 ⟨by cases message <;> decide, h⟩

theorem Receives.of_draining (h : Receives cpu x .draining y k') (hp : x.mailboxes cpu message = true) :
    ∃ rest, k' = .handling rest ∧ message ∈ rest := by
  cases h with
  | leave hempty => exact absurd hp (not_of_isEmpty hempty)
  | take => exact ⟨_, rfl, mem_messages hp⟩

theorem Receives.handled_count (h : Receives cpu x k y k') :
    x.handled.count (cpu, message) ≤ y.handled.count (cpu, message) := by
  cases h with
  | handle => exact List.count_le_count_cons
  | _ => exact Nat.le_refl _

theorem publish_of_pending {mailbox : IpiMailbox} {other : IpiMessage} (h : mailbox message = true) :
    mailbox.publish other message = true := by
  unfold IpiMailbox.publish
  by_cases hm : message = other
  · rw [hm, Function.update_self]
  · rw [Function.update_of_ne hm, h]

/-! ### Pending messages are covered -/

/-- The handler is under way and looks into the mailbox again before it ends. -/
def Phase.drains : Phase → Prop
  | acknowledging | draining | handling _ => True
  | _ => False

def CoversCpu (s : Threads.State Shared Agent Phase) (cpu : Nat) : Prop :=
  s.shared.doorbells cpu = true ∨ (s.own (.receiver cpu)).drains ∨ ∃ task, s.own (.sender task) = .ringing cpu

structure Covered (s : Threads.State Shared Agent Phase) : Prop where
  receiver : ∀ cpu, s.own (.receiver cpu) = .quiet ∨ (s.own (.receiver cpu)).drains
  covered : ∀ cpu message, s.shared.mailboxes cpu message = true → CoversCpu s cpu

theorem Covered.sender_step (h : Covered s) (hstep : threads.system.step s (.sender task) t) : Covered t := by
  obtain ⟨hact, hother⟩ := hstep
  have hreceiver (cpu : Nat) : t.own (.receiver cpu) = s.own (.receiver cpu) := hother _ (by simp)
  have hsender (j : Nat) (hj : j ≠ task) : t.own (.sender j) = s.own (.sender j) := hother _ (by simpa using hj)
  refine ⟨fun cpu => (hreceiver cpu).symm ▸ h.receiver cpu, fun cpu message hpending => ?_⟩
  rw [CoversCpu, hreceiver]
  rcases sender_act hact with ⟨cpu', message', hk, hx, hk'⟩ | ⟨cpu', hk, hx, hk'⟩ | ⟨hx, hk'⟩
  · have hkeep (hs : CoversCpu s cpu) :
        t.shared.doorbells cpu = true ∨ (s.own (.receiver cpu)).drains ∨ ∃ j, t.own (.sender j) = .ringing cpu := by
      rcases hs with hs | hs | ⟨j, hj⟩
      · exact .inl (by rw [hx]; exact hs)
      · exact .inr (.inl hs)
      · refine .inr (.inr ⟨j, (hsender j fun heq => ?_).trans hj⟩)
        rw [heq, hk] at hj
        cases hj
    by_cases hcpu : cpu = cpu'
    · subst hcpu
      by_cases hring : ringsDoorbell (s.shared.mailboxes cpu) message' = true
      · exact .inr (.inr ⟨task, by rw [hk', if_pos hring]⟩)
      · rw [ringsDoorbell, Bool.or_eq_true] at hring
        obtain ⟨earlier, hearlier⟩ := exists_of_not_isEmpty fun he => hring (.inl he)
        exact hkeep (h.covered cpu earlier hearlier)
    · rw [hx, mailboxes_setMailbox, Function.update_of_ne hcpu] at hpending
      exact hkeep (h.covered cpu message hpending)
  · by_cases hcpu : cpu = cpu'
    · subst hcpu
      exact .inl (by rw [hx, doorbells_setDoorbell, Function.update_self])
    · rw [hx] at hpending
      rcases h.covered cpu message hpending with hs | hs | ⟨j, hj⟩
      · exact .inl (by rw [hx, doorbells_setDoorbell, Function.update_of_ne hcpu, hs])
      · exact .inr (.inl hs)
      · refine .inr (.inr ⟨j, (hsender j fun heq => ?_).trans hj⟩)
        rw [heq, hk] at hj
        exact hcpu (Phase.ringing.inj hj).symm
  · rw [hx] at hpending
    rcases h.covered cpu message hpending with hs | hs | ⟨j, hj⟩
    · exact .inl (by rw [hx]; exact hs)
    · exact .inr (.inl hs)
    · refine .inr (.inr ⟨j, ?_⟩)
      by_cases heq : j = task
      · rw [heq, hk', ← heq, hj]
      · rw [hsender j heq, hj]

theorem Covered.receiver_step (h : Covered s) {here : Nat} (hstep : threads.system.step s (.receiver here) t) :
    Covered t := by
  obtain ⟨hact, hother⟩ := hstep
  have hact := receiver_act hact
  have hsender (j : Nat) : t.own (.sender j) = s.own (.sender j) := hother _ (by simp)
  have hreceiver {cpu : Nat} (hne : cpu ≠ here) : t.own (.receiver cpu) = s.own (.receiver cpu) :=
    hother _ (by simpa using hne)
  have hown : t.own (.receiver here) = .quiet ∨ (t.own (.receiver here)).drains := by
    generalize s.own (.receiver here) = k at hact
    generalize t.own (.receiver here) = k' at hact ⊢
    generalize t.shared = y at hact
    cases hact with
    | leave => exact .inl rfl
    | _ => exact .inr trivial
  refine ⟨fun cpu => ?_, fun cpu message hpending => ?_⟩
  · by_cases hne : cpu = here
    · exact hne ▸ hown
    · exact (hreceiver hne).symm ▸ h.receiver cpu
  by_cases hne : cpu = here
  · -- the handler leaves only when it has found the mailbox empty
    subst hne
    refine .inr (.inl (hown.resolve_left fun hquiet => ?_))
    generalize hx : t.shared = y at hact hpending
    generalize s.own (.receiver cpu) = k at hact
    rw [hquiet] at hact
    cases hact with
    | leave hempty => exact not_of_isEmpty hempty hpending
  · have hsame : t.shared.mailboxes cpu = s.shared.mailboxes cpu ∧ t.shared.doorbells cpu = s.shared.doorbells cpu := by
      generalize t.shared = y at hact
      generalize s.own (.receiver here) = k at hact
      generalize t.own (.receiver here) = k' at hact
      cases hact with
      | acknowledge => exact ⟨rfl, Function.update_of_ne hne _ _⟩
      | take => exact ⟨Function.update_of_ne hne _ _, rfl⟩
      | _ => exact ⟨rfl, rfl⟩
    rw [hsame.1] at hpending
    rcases h.covered cpu message hpending with hs | hs | ⟨j, hj⟩
    · exact .inl (hsame.2.trans hs)
    · exact .inr (.inl ((hreceiver hne).symm ▸ hs))
    · exact .inr (.inr ⟨j, (hsender j).trans hj⟩)

theorem covered_of_reachable (h : threads.system.Reachable s) : Covered s := by
  refine h.invariant (fun s hs => ⟨fun cpu => .inl (hs.2 _), fun cpu message hpending => ?_⟩) fun s i t hs hstep => ?_
  · rw [hs.1.1 cpu] at hpending
    cases hpending
  · cases i with
    | sender task => exact hs.sender_step hstep
    | receiver cpu => exact hs.receiver_step hstep

/-! ### Pending messages are handled -/

def Busy (s : Threads.State Shared Agent Phase) : Agent → Prop
  | .sender task => ∃ cpu, s.own (.sender task) = .ringing cpu
  | .receiver cpu => s.own (.receiver cpu) ≠ .quiet ∨ s.shared.doorbells cpu = true

/-- Nobody who has something to do stays where they are for ever: doorbells are rung and delivered, and handlers run. -/
def Fair (run : Nat → Threads.State Shared Agent Phase) : Prop :=
  ∀ n i, Busy (run n) i → ∃ k, n ≤ k ∧ (run k).own i ≠ (run n).own i

def Pending (cpu : Nat) (message : IpiMessage) (s : Threads.State Shared Agent Phase) : Prop :=
  s.shared.mailboxes cpu message = true

def Taken (cpu : Nat) (message : IpiMessage) (s : Threads.State Shared Agent Phase) : Prop :=
  ∃ rest, s.own (.receiver cpu) = .handling rest ∧ message ∈ rest

def handledCount (cpu : Nat) (message : IpiMessage) (s : Threads.State Shared Agent Phase) : Nat :=
  s.shared.handled.count (cpu, message)

structure Elsewhere (cpu : Nat) (s t : Threads.State Shared Agent Phase) : Prop where
  own : t.own (.receiver cpu) = s.own (.receiver cpu)
  pending : ∀ message, Pending cpu message s → Pending cpu message t
  doorbell : s.shared.doorbells cpu = true → t.shared.doorbells cpu = true
  handled : ∀ message, handledCount cpu message s = handledCount cpu message t

theorem step_cases (h : threads.system.step s i t) (cpu : Nat) :
    Elsewhere cpu s t ∨ i = .receiver cpu ∧
      Receives cpu s.shared (s.own (.receiver cpu)) t.shared (t.own (.receiver cpu)) := by
  obtain ⟨hact, hother⟩ := h
  cases i with
  | sender task =>
    refine .inl ?_
    have hown : t.own (.receiver cpu) = s.own (.receiver cpu) := hother _ (by simp)
    rcases sender_act hact with ⟨cpu', message', -, hx, -⟩ | ⟨cpu', -, hx, -⟩ | ⟨hx, -⟩
    · refine ⟨hown, fun message hp => ?_, by rw [hx]; exact id, fun message => by rw [handledCount, handledCount, hx]; rfl⟩
      rw [Pending, hx, mailboxes_setMailbox]
      by_cases hcpu : cpu = cpu'
      · subst hcpu
        rw [Function.update_self]
        exact publish_of_pending hp
      · rw [Function.update_of_ne hcpu]
        exact hp
    · refine ⟨hown, fun message hp => by rw [Pending, hx]; exact hp, fun hd => ?_,
        fun message => by rw [handledCount, handledCount, hx]; rfl⟩
      rw [hx, doorbells_setDoorbell]
      by_cases hcpu : cpu = cpu'
      · rw [hcpu, Function.update_self]
      · rw [Function.update_of_ne hcpu, hd]
    · exact ⟨hown, fun message hp => by rw [Pending, hx]; exact hp, by rw [hx]; exact id,
        fun message => by rw [handledCount, handledCount, hx]⟩
  | receiver here =>
    by_cases hcpu : cpu = here
    · subst hcpu
      exact .inr ⟨rfl, receiver_act hact⟩
    · refine .inl ?_
      have hown : t.own (.receiver cpu) = s.own (.receiver cpu) := hother _ (by simpa using hcpu)
      have hact := receiver_act hact
      have hsame : t.shared.mailboxes cpu = s.shared.mailboxes cpu ∧ t.shared.doorbells cpu = s.shared.doorbells cpu ∧
          ∀ message, t.shared.handled.count (cpu, message) = s.shared.handled.count (cpu, message) := by
        generalize t.shared = y at hact
        generalize s.own (.receiver here) = k at hact
        generalize t.own (.receiver here) = k' at hact
        cases hact with
        | acknowledge => exact ⟨rfl, Function.update_of_ne hcpu _ _, fun _ => rfl⟩
        | take => exact ⟨Function.update_of_ne hcpu _ _, rfl, fun _ => rfl⟩
        | handle =>
          refine ⟨rfl, rfl, fun message => List.count_cons_of_ne fun heq => hcpu ?_⟩
          exact (Prod.mk.inj heq).1.symm
        | _ => exact ⟨rfl, rfl, fun _ => rfl⟩
      exact ⟨hown, fun message hp => by rw [Pending, hsame.1]; exact hp, fun hd => hsame.2.1.trans hd,
        fun message => (hsame.2.2 message).symm⟩

section liveness
variable {run : Nat → Threads.State Shared Agent Phase}

/-- The handler leaves a phase in which it is busy, and what others do not disturb still holds then. -/
theorem handler_leads (hrun : threads.system.IsRun run) (hfair : Fair run) (I G : Threads.State Shared Agent Phase → Prop)
    (hbusy : ∀ s, I s → s.own (.receiver cpu) = k → Busy s (.receiver cpu))
    (hI : ∀ s t, Elsewhere cpu s t → I s → I t)
    (hG : ∀ s t, I s → Receives cpu s.shared k t.shared (t.own (.receiver cpu)) → G t) :
    LeadsTo run (fun s => I s ∧ s.own (.receiver cpu) = k) G := by
  refine LeadsTo.of_unless (fun n hn => ?_) fun n hn => ?_
  · rcases hrun.step n with heq | ⟨i, hstep⟩
    · exact .inl (heq ▸ hn)
    · rcases step_cases hstep cpu with helse | ⟨-, hact⟩
      · exact .inl ⟨hI _ _ helse hn.1, helse.own.trans hn.2⟩
      · exact .inr (hG _ _ hn.1 (hn.2 ▸ hact))
  · obtain ⟨m, hm, hne⟩ := hfair n _ (hbusy _ hn.1 hn.2)
    exact ⟨m, hm, fun hP => hne (hP.2.trans hn.2.symm)⟩

theorem draining_leads (hrun : threads.system.IsRun run) (hfair : Fair run) :
    LeadsTo run (fun s => Pending cpu message s ∧ s.own (.receiver cpu) = .draining) (Taken cpu message) :=
  handler_leads hrun hfair _ _ (fun s _ hs => .inl (by simp [hs])) (fun s t h => h.pending message)
    fun s t hs hact => hact.of_draining hs

theorem handling_leads (hrun : threads.system.IsRun run) (hfair : Fair run) (rest : List IpiMessage) :
    LeadsTo run (fun s => Pending cpu message s ∧ s.own (.receiver cpu) = .handling rest) (Taken cpu message) := by
  induction rest with
  | nil =>
    refine (handler_leads hrun hfair _ _ (fun s _ hs => .inl (by simp [hs])) (fun s t h => h.pending message)
      fun s t hs hact => ⟨?_, hact.of_handling_nil⟩).trans (draining_leads hrun hfair)
    rw [Pending, hact.mailboxes (by simp)]
    exact hs
  | cons first rest ih =>
    refine (handler_leads hrun hfair _ _ (fun s _ hs => .inl (by simp [hs])) (fun s t h => h.pending message)
      fun s t hs hact => ⟨?_, hact.of_handling_cons.1⟩).trans ih
    rw [Pending, hact.mailboxes (by simp)]
    exact hs

theorem acknowledging_leads (hrun : threads.system.IsRun run) (hfair : Fair run) :
    LeadsTo run (fun s => Pending cpu message s ∧ s.own (.receiver cpu) = .acknowledging) (Taken cpu message) := by
  refine (handler_leads hrun hfair _ _ (fun s _ hs => .inl (by simp [hs])) (fun s t h => h.pending message)
    fun s t hs hact => ⟨?_, hact.of_acknowledging⟩).trans (draining_leads hrun hfair)
  rw [Pending, hact.mailboxes (by simp)]
  exact hs

theorem drains_leads (hrun : threads.system.IsRun run) (hfair : Fair run) :
    LeadsTo run (fun s => Pending cpu message s ∧ (s.own (.receiver cpu)).drains) (Taken cpu message) := by
  rintro n ⟨hpending, hdrains⟩
  cases hk : (run n).own (.receiver cpu) with
  | acknowledging => exact acknowledging_leads hrun hfair n ⟨hpending, hk⟩
  | draining => exact draining_leads hrun hfair n ⟨hpending, hk⟩
  | handling rest => exact handling_leads hrun hfair rest n ⟨hpending, hk⟩
  | _ =>
    rw [hk] at hdrains
    exact hdrains.elim

/-- A doorbell that has been rung is delivered, at the latest when the handler has ended. -/
theorem doorbell_leads (hrun : threads.system.IsRun run) (hfair : Fair run) :
    LeadsTo run (fun s => Pending cpu message s ∧ s.shared.doorbells cpu = true) (Taken cpu message) := by
  have hquiet : LeadsTo run
      (fun s => (Pending cpu message s ∧ s.shared.doorbells cpu = true) ∧ s.own (.receiver cpu) = .quiet)
        (Taken cpu message) := by
    refine (handler_leads hrun hfair _ _ (fun s hs _ => .inr hs.2)
      (fun s t h hs => ⟨h.pending message hs.1, h.doorbell hs.2⟩) fun s t hs hact => ⟨?_, hact.of_quiet⟩).trans
      (acknowledging_leads hrun hfair)
    rw [Pending, hact.mailboxes (by simp)]
    exact hs.1
  intro n hn
  rcases (covered_of_reachable (hrun.reachable n)).receiver cpu with hk | hk
  · exact hquiet n ⟨hn, hk⟩
  · exact drains_leads hrun hfair n ⟨hn.1, hk⟩

theorem pending_step (hrun : threads.system.IsRun run) {n : Nat} (h : Pending cpu message (run n)) :
    Pending cpu message (run (n + 1)) ∨ Taken cpu message (run (n + 1)) := by
  rcases hrun.step n with heq | ⟨i, hstep⟩
  · exact .inl (heq ▸ h)
  rcases step_cases hstep cpu with helse | ⟨-, hact⟩
  · exact .inl (helse.pending message h)
  by_cases hk : (run n).own (.receiver cpu) = .draining
  · rw [hk] at hact
    exact .inr (hact.of_draining h)
  · rw [Pending, hact.mailboxes hk]
    exact .inl h

theorem ringing_leads (hrun : threads.system.IsRun run) (hfair : Fair run) (task : Nat) :
    LeadsTo run (fun s => Pending cpu message s ∧ s.own (.sender task) = .ringing cpu) (Taken cpu message) := by
  have hrings : LeadsTo run (fun s => Pending cpu message s ∧ s.own (.sender task) = .ringing cpu)
      (fun s => Taken cpu message s ∨ Pending cpu message s ∧ s.shared.doorbells cpu = true) := by
    refine LeadsTo.of_unless (fun n hn => ?_) fun n hn => ?_
    · rcases pending_step hrun hn.1 with hp | ht
      · rcases hrun.step n with heq | ⟨i, hact, hother⟩
        · exact .inl (heq ▸ hn)
        · by_cases hi : i = .sender task
          · subst hi
            rcases sender_act hact with ⟨_, _, hk, -⟩ | ⟨cpu', hk, hx, -⟩ | ⟨-, hk⟩
            · rw [hn.2] at hk
              cases hk
            · rw [hn.2] at hk
              cases hk
              exact .inr (.inr ⟨hp, by rw [hx, doorbells_setDoorbell, Function.update_self]⟩)
            · exact .inl ⟨hp, hk.trans hn.2⟩
          · exact .inl ⟨hp, (hother _ (Ne.symm hi)).trans hn.2⟩
      · exact .inr (.inl ht)
    · obtain ⟨m, hm, hne⟩ := hfair n (.sender task) ⟨cpu, hn.2⟩
      exact ⟨m, hm, fun hP => hne (hP.2.trans hn.2.symm)⟩
  exact hrings.trans (LeadsTo.or (.of_imp fun _ h => h) (doorbell_leads hrun hfair))

theorem pending_leads (hrun : threads.system.IsRun run) (hfair : Fair run) :
    LeadsTo run (Pending cpu message) (Taken cpu message) := by
  intro n hn
  rcases (covered_of_reachable (hrun.reachable n)).covered cpu message hn with hd | hd | ⟨task, hd⟩
  · exact doorbell_leads hrun hfair n ⟨hn, hd⟩
  · exact drains_leads hrun hfair n ⟨hn, hd⟩
  · exact ringing_leads hrun hfair task n ⟨hn, hd⟩

theorem taken_leads (hrun : threads.system.IsRun run) (hfair : Fair run) (count : Nat) (rest : List IpiMessage)
    (hmem : message ∈ rest) :
    LeadsTo run (fun s => count ≤ handledCount cpu message s ∧ s.own (.receiver cpu) = .handling rest)
      (fun s => count < handledCount cpu message s) := by
  induction rest with
  | nil => cases hmem
  | cons first rest ih =>
    have hnext : LeadsTo run (fun s => count ≤ handledCount cpu message s ∧
      s.own (.receiver cpu) = .handling (first :: rest))
        (fun s => (count < handledCount cpu message s) ∨
          (message ∈ rest ∧ count ≤ handledCount cpu message s ∧ s.own (.receiver cpu) = .handling rest)) := by
      refine handler_leads hrun hfair _ _ (fun s _ hs => .inl (by simp [hs])) (fun s t h hs => h.handled message ▸ hs)
        fun s t hs hact => ?_
      obtain ⟨hk', hhandled⟩ := hact.of_handling_cons
      rw [handledCount, hhandled]
      by_cases hfirst : first = message
      · rw [hfirst, List.count_cons_self]
        exact .inl (Nat.lt_succ_of_le hs)
      · have hne : (cpu, first) ≠ (cpu, message) := fun heq => hfirst (Prod.mk.inj heq).2
        rw [List.count_cons_of_ne hne]
        exact .inr ⟨(List.mem_cons.1 hmem).resolve_left (Ne.symm hfirst), hs, hk'⟩
    refine hnext.trans (LeadsTo.or (.of_imp fun _ h => h) fun n hn => ?_)
    exact ih hn.1 n hn.2

theorem handledCount_mono (hrun : threads.system.IsRun run) {n m : Nat} (h : n ≤ m) :
    handledCount cpu message (run n) ≤ handledCount cpu message (run m) := by
  induction h with
  | refl => exact Nat.le_refl _
  | @step m _ ih =>
    refine Nat.le_trans ih ?_
    rcases hrun.step m with heq | ⟨i, hstep⟩
    · rw [heq]
    rcases step_cases hstep cpu with helse | ⟨-, hact⟩
    · exact Nat.le_of_eq (helse.handled message)
    · exact hact.handled_count

end liveness

/-- A sender publishes a message to a CPU that is ready for it. -/
def Sends (cpu : Nat) (message : IpiMessage) (s t : Threads.State Shared Agent Phase) : Prop :=
  ∃ task, step s.shared (.sender task) (s.own (.sender task)) (.send cpu message true) =
    some (t.shared, t.own (.sender task))

/-- The message is in the mailbox then, and no other message has left a mailbox. -/
theorem Sends.pending (h : Sends cpu message s t) :
    Pending cpu message t ∧ ∀ cpu' message', Pending cpu' message' s → Pending cpu' message' t := by
  obtain ⟨task, h⟩ := h
  unfold step at h
  split at h
  · cases h
  · cases hk : s.own (.sender task) <;> simp only [hk, senderStep, if_true, reduceCtorEq, Option.some.injEq,
      Prod.mk.injEq] at h
    obtain ⟨hshared, -⟩ := h
    simp only [Pending, ← hshared, Shared.setMailbox]
    refine ⟨by simp [IpiMailbox.publish], fun cpu' message' hpending => ?_⟩
    by_cases hcpu : cpu' = cpu
    · subst hcpu
      rw [Function.update_self]
      exact publish_of_pending hpending
    · rwa [Function.update_of_ne hcpu]

/-- A message in a mailbox is always covered by a doorbell, by a handler that has yet to look, or by a sender that is about
to ring; so, if doorbells are rung and delivered and handlers run, every message is handled after it has been published. A
send puts its message into the mailbox and takes nothing out, whether it rings or not, and what it has sent is handled
later. -/
theorem no_message_lost :
    (∀ s, threads.system.Reachable s → ∀ cpu message, s.shared.mailboxes cpu message = true →
      s.shared.doorbells cpu = true ∨ (s.own (.receiver cpu)).drains ∨ ∃ task, s.own (.sender task) = .ringing cpu) ∧
    (∀ run, threads.system.IsRun run → Fair run → ∀ n cpu message, (run n).shared.mailboxes cpu message = true →
      ∃ k, n ≤ k ∧ handledCount cpu message (run n) < handledCount cpu message (run k)) ∧
    (∀ s t cpu message, Sends cpu message s t → t.shared.mailboxes cpu message = true ∧
      ∀ cpu' message', s.shared.mailboxes cpu' message' = true → t.shared.mailboxes cpu' message' = true) ∧
    ∀ run, threads.system.IsRun run → Fair run → ∀ n cpu message, Sends cpu message (run n) (run (n + 1)) →
      ∃ k, n < k ∧ handledCount cpu message (run n) < handledCount cpu message (run k) := by
  have hhandled : ∀ run, threads.system.IsRun run → Fair run → ∀ n cpu message, Pending cpu message (run n) →
      ∃ k, n ≤ k ∧ handledCount cpu message (run n) < handledCount cpu message (run k) := by
    intro run hrun hfair n cpu message hp
    obtain ⟨k, hk, rest, hrest, hmem⟩ := pending_leads hrun hfair n hp
    obtain ⟨m, hm, hlt⟩ := taken_leads hrun hfair (handledCount cpu message (run n)) rest hmem k
      ⟨handledCount_mono hrun hk, hrest⟩
    exact ⟨m, Nat.le_trans hk hm, hlt⟩
  refine ⟨fun s hs cpu message hp => (covered_of_reachable hs).covered cpu message hp, hhandled,
    fun s t cpu message hsends => hsends.pending, fun run hrun hfair n cpu message hsends => ?_⟩
  obtain ⟨k, hk, hlt⟩ := hhandled run hrun hfair (n + 1) cpu message hsends.pending.1
  exact ⟨k, hk, Nat.lt_of_le_of_lt (handledCount_mono hrun (Nat.le_succ n)) hlt⟩

/-- Sender 1 finds the message of sender 0 in the mailbox and does not ring. -/
def twoMessages : List (Agent × Input) :=
  [(.sender 0, .send 0 .tlbShootdown true), (.sender 1, .send 0 .reschedule true), (.sender 0, .ring true),
    (.receiver 0, .interrupt), (.receiver 0, .advance), (.receiver 0, .advance), (.receiver 0, .advance),
    (.receiver 0, .advance), (.receiver 0, .advance), (.receiver 0, .advance)]

/-- No message, no doorbell, and nobody at work. -/
def quietMachine : Threads.State Shared Agent Phase := ⟨⟨fun _ => .empty, fun _ => false, [], false⟩, Agent.first⟩

theorem quietMachine_init : threads.system.init quietMachine := ⟨⟨fun _ => rfl, rfl, rfl⟩, fun _ => rfl⟩

/-- The run of the two messages. -/
def twoMessagesRun : Nat → Threads.State Shared Agent Phase := Threads.follow step quietMachine twoMessages

theorem twoMessagesRun_of_le {n : Nat} (h : 10 ≤ n) : twoMessagesRun n = twoMessagesRun 10 := Threads.follow_of_le h

theorem twoMessagesRun_end : (twoMessagesRun 10).own = Agent.first := by
  have hown : (twoMessagesRun 10).own = Function.update (Function.update (Function.update (Function.update (Function.update
      (Function.update (Function.update (Function.update (Function.update (Function.update Agent.first
      (.sender 0) (.ringing 0)) (.sender 1) .idle) (.sender 0) .idle) (.receiver 0) .acknowledging) (.receiver 0) .draining)
      (.receiver 0) (.handling [.tlbShootdown, .reschedule])) (.receiver 0) (.handling [.reschedule]))
      (.receiver 0) (.handling [])) (.receiver 0) .draining) (.receiver 0) .quiet := rfl
  rw [hown]
  funext i
  simp only [Function.update_apply]
  split_ifs <;> simp_all [Agent.first]

theorem twoMessagesRun_doorbell {n : Nat} (h : (twoMessagesRun n).shared.doorbells cpu = true) : n ≤ 4 ∧ cpu = 0 := by
  have hoff : (twoMessagesRun 5).shared.doorbells = Function.update (Function.update (fun _ => false) 0 true) 0 false := rfl
  have hlater (hn : 5 ≤ n) : (twoMessagesRun n).shared.doorbells = (twoMessagesRun 5).shared.doorbells := by
    rcases Nat.lt_or_ge n 10 with hlt | hge
    · interval_cases n <;> rfl
    · rw [twoMessagesRun_of_le hge]
      rfl
  rcases Nat.lt_or_ge n 5 with hlt | hge
  · refine ⟨Nat.le_of_lt_succ hlt, not_not.1 fun hcpu => ?_⟩
    interval_cases n
    iterate 3 cases h
    all_goals
      change Function.update (fun _ => false) 0 true cpu = true at h
      rw [Function.update_of_ne hcpu] at h
      cases h
  · rw [hlater hge, hoff] at h
    by_cases hcpu : cpu = 0
    · rw [hcpu, Function.update_self] at h
      cases h
    · rw [Function.update_of_ne hcpu, Function.update_of_ne hcpu] at h
      cases h

theorem twoMessagesRun_fair : Fair twoMessagesRun := by
  intro n i hbusy
  have hend : (twoMessagesRun (max n 10)).own = Agent.first := by
    rw [twoMessagesRun_of_le (Nat.le_max_right n 10), twoMessagesRun_end]
  by_cases hfirst : (twoMessagesRun n).own i = i.first
  · cases i with
    | sender task =>
      obtain ⟨cpu, hcpu⟩ := hbusy
      rw [hfirst] at hcpu
      cases hcpu
    | receiver cpu =>
      obtain ⟨hle, rfl⟩ := twoMessagesRun_doorbell (hbusy.resolve_left fun hne => hne hfirst)
      refine ⟨4, hle, ?_⟩
      rw [hfirst]
      decide
  · exact ⟨max n 10, Nat.le_max_left n 10, fun heq => hfirst (by rw [← heq, hend])⟩

/-- The message that came without a doorbell of its own is handled. -/
theorem no_message_lost_coalesced : Sends 0 .reschedule (twoMessagesRun 1) (twoMessagesRun 2) ∧
    (twoMessagesRun 2).own (.sender 1) = .idle ∧ (twoMessagesRun 2).shared.doorbells 0 = false ∧
    ∃ k, 1 < k ∧ handledCount 0 .reschedule (twoMessagesRun 1) < handledCount 0 .reschedule (twoMessagesRun k) := by
  have hsends : Sends 0 .reschedule (twoMessagesRun 1) (twoMessagesRun 2) := ⟨1, rfl⟩
  refine ⟨hsends, rfl, rfl, no_message_lost.2.2.2 twoMessagesRun ?_ twoMessagesRun_fair 1 0 .reschedule hsends⟩
  exact Threads.follow_isRun (p := threads) (fun h => ⟨_, h⟩) quietMachine_init twoMessages

end Ipi

end SudoOS
