import SudoOS.Theorems.Family

/-! What `wait4` reports of a child. -/

namespace SudoOS

/-! ### Status words -/

namespace Wait4

def exitCode (word : BitVec 32) : Option Nat := if word &&& 0x7f = 0 then some ((word >>> 8) &&& 0xff).toNat else none

def termSignal (word : BitVec 32) : Option Nat :=
  if word &&& 0x7f = 0 ∨ word &&& 0x7f = 0x7f then none else some (word &&& 0x7f).toNat

theorem encodeStatus_neg {n : Nat} (h : 0 < n) : encodeStatus false (-(n : Int)) = BitVec.ofNat 32 (n % 128) := by
  have hneg : -(n : Int) < 0 := by omega
  rw [encodeStatus, if_neg Bool.false_ne_true, if_pos hneg, Int.neg_neg, BitVec.ofInt_natCast]
  refine BitVec.eq_of_toNat_eq ?_
  simp only [BitVec.toNat_and, BitVec.toNat_ofNat]
  rw [show (127 : BitVec 32).toNat = 2 ^ 7 - 1 from rfl, Nat.and_two_pow_sub_one_eq_mod]
  omega

theorem encodeStatus_natCast (n : Nat) : encodeStatus false n = BitVec.ofNat 32 (n % 256 * 256) := by
  have hpos : ¬ (n : Int) < 0 := by omega
  rw [encodeStatus, if_neg Bool.false_ne_true, if_neg hpos, BitVec.ofInt_natCast]
  refine BitVec.eq_of_toNat_eq ?_
  simp only [BitVec.toNat_shiftLeft, BitVec.toNat_and, BitVec.toNat_ofNat]
  rw [show (255 : BitVec 32).toNat = 2 ^ 8 - 1 from rfl, Nat.and_two_pow_sub_one_eq_mod, Nat.shiftLeft_eq]
  omega

theorem termSignal_low : ∀ m < 128, termSignal (BitVec.ofNat 32 m) = if m = 0 ∨ m = 127 then none else some m := by
  decide +kernel

theorem exitCode_low : ∀ m < 128, exitCode (BitVec.ofNat 32 m) = if m = 0 then some 0 else none := by decide +kernel

theorem exited_high : ∀ c < 256, exitCode (BitVec.ofNat 32 (c * 256)) = some c ∧
    termSignal (BitVec.ofNat 32 (c * 256)) = none := by
  decide +kernel

end Wait4

namespace Ending

def TerminatedBy (n : Nat) : Ending → Prop
  | signal bit => n = bit.val + 1
  | fault => n = 11
  | _ => False

structure ToldBy (e : Ending) (word : BitVec 32) : Prop where
  exited : ∀ {code}, e = .exit code → Wait4.exitCode word = some (code.toNat % 256)
  signalled : ∀ {n}, Wait4.termSignal word = some n → e.TerminatedBy n

def Distinct : Ending → Prop
  | exit code => code.toNat < 2 ^ 63 ∨ code.toNat % 256 = 0 ∧ code.toNat ≠ 2 ^ 63
  | signal _ | fault => True
  | exception | lostFrame => False

theorem exit_status_nonneg {code : Word} (h : code.toNat < 2 ^ 63) : (exit code).status = (code.toNat : Int) := by
  rw [status, BitVec.toInt_eq_toNat_cond, if_pos (by omega)]

theorem exit_status_neg {code : Word} (h : ¬ code.toNat < 2 ^ 63) :
    (exit code).status = -((2 ^ 64 - code.toNat : Nat) : Int) := by
  have hlt := code.isLt
  rw [status, BitVec.toInt_eq_toNat_cond, if_neg (by omega)]
  omega

theorem toldBy_exit_neg {code : Word} (h : ¬ code.toNat < 2 ^ 63) :
    (exit code).ToldBy (Wait4.encodeStatus false (exit code).status) ↔ code.toNat % 256 = 0 := by
  have hlt := code.isLt
  have hmod : (2 ^ 64 - code.toNat) % 128 < 128 := Nat.mod_lt _ (by omega)
  rw [exit_status_neg h, Wait4.encodeStatus_neg (by omega)]
  constructor
  · rintro ⟨hexited, -⟩
    have hcode := hexited rfl
    rw [Wait4.exitCode_low _ hmod] at hcode
    split_ifs at hcode
    exact (Option.some.inj hcode).symm
  · intro hzero
    have hlow : (2 ^ 64 - code.toNat) % 128 = 0 := by omega
    rw [hlow]
    refine ⟨?_, ?_⟩
    · rintro other ⟨⟩
      rw [hzero]
      rfl
    · intro n hsignal
      cases hsignal

theorem toldBy_exit_nonneg {code : Word} (h : code.toNat < 2 ^ 63) :
    (exit code).ToldBy (Wait4.encodeStatus false (exit code).status) := by
  obtain ⟨hcode, hsignal⟩ := Wait4.exited_high (code.toNat % 256) (Nat.mod_lt _ (by omega))
  rw [exit_status_nonneg h, Wait4.encodeStatus_natCast]
  refine ⟨?_, ?_⟩
  · rintro other ⟨⟩
    exact hcode
  · intro n hn
    rw [hsignal] at hn
    cases hn

theorem toldBy_signal_iff {e : Ending} {m : Nat} (hstatus : e.status = -(m : Int)) (hpos : 0 < m) (hlt : m < 127)
    (hexit : ∀ {code}, e ≠ .exit code) : e.ToldBy (Wait4.encodeStatus false e.status) ↔ e.TerminatedBy m := by
  have hsignal : Wait4.termSignal (Wait4.encodeStatus false e.status) = some m := by
    rw [hstatus, Wait4.encodeStatus_neg hpos, Nat.mod_eq_of_lt (by omega), Wait4.termSignal_low m (by omega),
      if_neg (by omega)]
  constructor
  · rintro ⟨-, hsignalled⟩
    exact hsignalled hsignal
  · intro hterminated
    refine ⟨fun h => absurd h hexit, ?_⟩
    intro n hn
    cases hsignal.symm.trans hn
    exact hterminated

theorem toldBy_iff_distinct (e : Ending) (h : e.status ≠ -2 ^ 63) :
    e.ToldBy (Wait4.encodeStatus false e.status) ↔ e.Distinct := by
  cases e with
  | exit code =>
    by_cases hsign : code.toNat < 2 ^ 63
    · exact iff_of_true (toldBy_exit_nonneg hsign) (.inl hsign)
    · rw [toldBy_exit_neg hsign, Distinct]
      rw [exit_status_neg hsign] at h
      omega
  | signal bit =>
    have hbit := bit.isLt
    exact (toldBy_signal_iff rfl (by omega) (by omega) Ending.noConfusion).trans (iff_of_true rfl trivial)
  | fault =>
    exact (toldBy_signal_iff (m := 11) rfl (by omega) (by omega) Ending.noConfusion).trans (iff_of_true rfl trivial)
  | exception | lostFrame => exact toldBy_signal_iff (m := 14) rfl (by omega) (by omega) Ending.noConfusion

theorem Distinct.status_ne {e : Ending} (h : e.Distinct) : e.status ≠ -2 ^ 63 := by
  cases e with
  | exit code =>
    by_cases hsign : code.toNat < 2 ^ 63
    · rw [exit_status_nonneg hsign]
      omega
    · rw [exit_status_neg hsign]
      rcases h with hlow | ⟨-, hne⟩ <;> omega
  | signal bit =>
    have hbit := bit.isLt
    rw [status]
    omega
  | fault => decide
  | exception | lostFrame => cases h

end Ending

/-! ### The way of a status -/

namespace Family

structure Recorded where
  shared : Shared
  ended : List (Nat × Ending)

def ordinary : Input → Bool
  | .exit _ | .active => false
  | _ => true

def recordedStep (s : Recorded) (i : Nat) (k : Phase) : Ending ⊕ Input → Option (Recorded × Phase)
  | .inl e =>
    match k with
    | .user p => (step s.shared i k (.exit e.status)).map fun next => (⟨next.1, s.ended ++ [(p, e)]⟩, next.2)
    | _ => none
  | .inr input =>
    if ordinary input then (step s.shared i k input).map fun next => (⟨next.1, s.ended⟩, next.2) else none

def recorded : Threads Recorded Nat Phase where
  init s := (threads fun _ _ => True).init s.shared ∧ s.ended = []
  start _ k := k = .unborn
  act i s k s' k' := ∃ move, recordedStep s i k move = some (s', k')

variable {s s' : Shared} {i p q : Nat} {entry new : Entry} {k k' : Phase} {input : Input} {raw : Int} {call : Wait4}
  {ended : List (Nat × Ending)} {registry : Nat → Option Entry}

def Left (ended : List (Nat × Ending)) (p : Nat) (raw : Int) : Prop := ∃ e, (p, e) ∈ ended ∧ raw = e.status

def Known (registry : Nat → Option Entry) (ended : List (Nat × Ending)) : Prop :=
  ∀ ⦃p entry⦄, registry p = some entry → ∀ z ∈ entry.relations.zombieChildren, Left ended z.1 z.2

def Traced (ended : List (Nat × Ending)) : Phase → Prop
  | .retired p raw | .dropping p raw | .reporting _ _ p raw => Left ended p raw
  | .reportingUsage _ _ child (some word) | .returned _ _ (some word) (.reaped child) =>
    ∃ raw, Left ended child raw ∧ raw ≠ -2 ^ 63 ∧ word = Wait4.encodeStatus false raw
  | _ => True

theorem Left.concat {e : Nat × Ending} (h : Left ended p raw) : Left (ended ++ [e]) p raw :=
  h.imp fun _ hmem => ⟨List.mem_append_left _ hmem.1, hmem.2⟩

theorem Traced.concat {e : Nat × Ending} (h : Traced ended k) : Traced (ended ++ [e]) k := by
  unfold Traced at h ⊢
  split
  · exact Left.concat h
  · exact Left.concat h
  · exact Left.concat h
  · exact h.imp fun _ hraw => ⟨hraw.1.concat, hraw.2⟩
  · exact h.imp fun _ hraw => ⟨hraw.1.concat, hraw.2⟩
  · trivial

theorem Known.put (h : Known registry ended) (hnew : ∀ z ∈ new.relations.zombieChildren, Left ended z.1 z.2) :
    Known (Function.update registry p (some new)) ended := by
  intro q entry hq
  by_cases hqp : q = p
  · subst hqp
    rw [Function.update_self] at hq
    exact Option.some.inj hq ▸ hnew
  · rw [Function.update_of_ne hqp] at hq
    exact h hq

theorem Known.keep (h : Known registry ended) (hp : registry p = some entry)
    (hnew : new.relations.zombieChildren = entry.relations.zombieChildren) :
    Known (Function.update registry p (some new)) ended := h.put (hnew ▸ h hp)

theorem Known.remove (h : Known registry ended) : Known (Function.update registry p none) ended := by
  intro q entry hq
  by_cases hqp : q = p
  · subst hqp
    rw [Function.update_self] at hq
    cases hq
  · rw [Function.update_of_ne hqp] at hq
    exact h hq

theorem Known.create {next : Shared × Nat} (h : Known s.registry ended) (hempty : new.relations.zombieChildren = [])
    (hcreate : create s i new = some next) : Known next.1.registry ended := by
  unfold Family.create at hcreate
  split_ifs at hcreate
  cases hcreate
  exact h.put fun z hz => absurd hz (hempty ▸ List.not_mem_nil)

def Told (ended : List (Nat × Ending)) (next : Shared × Phase) : Prop := Known next.1.registry ended ∧ Traced ended next.2

theorem Known.fork {copied : Bool} (h : Known s.registry ended) : Told ended (fork s i p copied) := by
  unfold Family.fork
  split
  · exact ⟨h, trivial⟩
  · rename_i created child hcreate
    have hknown := h.create rfl hcreate
    split_ifs
    · exact ⟨hknown, trivial⟩
    · exact ⟨hknown.remove, trivial⟩

theorem Known.addChild {child : Nat} {granted : Bool} (h : Known s.registry ended) (hp : s.registry p = some entry) :
    Told ended (addChild s p child entry granted) := by
  unfold Family.addChild ProcessRelations.addChild
  cases granted with
  | true => exact ⟨h.keep hp rfl, trivial⟩
  | false => exact ⟨h.remove, trivial⟩

theorem Known.createInitialThread {child : Nat} {granted : Bool} (h : Known s.registry ended) :
    Told ended (createInitialThread s p child granted) := by
  unfold Family.createInitialThread
  split
  · rename_i old hchild
    split_ifs
    · exact ⟨h.keep hchild rfl, trivial⟩
    · exact ⟨h, trivial⟩
  · exact ⟨h, trivial⟩

theorem Known.createThread {admitted : Bool} (h : Known s.registry ended) (hp : s.registry p = some entry) :
    Told ended (createThread s p entry admitted) := by
  unfold Family.createThread
  split_ifs
  · exact ⟨h, trivial⟩
  · exact ⟨h.keep hp rfl, trivial⟩
  · exact ⟨h, trivial⟩

theorem Known.waitZombieChild (h : Known s.registry ended) (hp : s.registry p = some entry) :
    Told ended (waitZombieChild s i p entry call) := by
  unfold Family.waitZombieChild ProcessRelations.waitZombieChild
  split
  · rename_i child raw relations hwait
    obtain ⟨hfind, rfl⟩ := Prod.mk.inj hwait
    exact ⟨h.put fun z hz => h hp z (List.mem_of_mem_eraseP hz), h hp _ (List.mem_of_find?_eq_some hfind)⟩
  · exact ⟨h, trivial⟩

theorem Known.notifyParent {granted : Bool} (h : Known s.registry ended) (hleft : Left ended p raw) :
    Known (notifyParent s p entry raw granted).registry ended := by
  unfold Family.notifyParent
  split
  · exact h
  · split
    · exact h
    · rename_i parent hparent
      refine h.put fun z hz => ?_
      unfold ProcessRelations.markChildZombie at hz
      split_ifs at hz
      · rcases List.mem_append.1 hz with hold | hself
        · exact h hparent z hold
        · exact List.mem_singleton.1 hself ▸ hleft
      · exact h hparent z hz
      · exact h hparent z hz

theorem Known.report {child : Nat} (h : Known s.registry ended) (hleft : Left ended child raw) :
    Told ended (report s p call child raw) := by
  unfold Family.report
  split_ifs with haddress hmin
  · exact ⟨h, trivial⟩
  · exact ⟨h, hleft⟩
  · exact ⟨h, raw, hleft, hmin, rfl⟩

theorem Known.memberStep (h : Known s.registry ended) (hp : s.registry p = some entry) (hk : Traced ended k)
    (hordinary : ordinary input = true) (hprocess : k.process = some p)
    (hstep : memberStep s i p entry k input = some (s', k')) : Told ended (s', k') := by
  cases k <;> cases input <;> simp only [Family.memberStep, Option.some.injEq, reduceCtorEq] at hstep <;> cases hprocess
  case user.fork copied => exact hstep ▸ h.fork
  case forking.reserve child granted => exact hstep ▸ h.addChild hp
  case starting.reserve child granted => exact hstep ▸ h.createInitialThread
  case user.clone admitted => exact hstep ▸ h.createThread hp
  case waiting.advance call => exact hstep ▸ h.waitZombieChild hp
  case reporting.advance call child raw => exact hstep ▸ h.report hk
  case user.exit status | reporting.active call child raw => cases hordinary
  case user.wait call =>
    refine hstep ▸ ⟨h, ?_⟩
    unfold enterWait
    split_ifs <;> trivial
  case checking.advance call =>
    refine hstep ▸ ⟨h, ?_⟩
    unfold Family.hasChild
    split_ifs <;> trivial
  case blocking.advance call =>
    refine hstep ▸ ⟨h, ?_⟩
    unfold block
    split_ifs <;> trivial
  case reporting.fault call child raw =>
    split_ifs at hstep
    exact Option.some.inj hstep ▸ ⟨h, trivial⟩
  case reportingUsage.fault call child status =>
    split_ifs at hstep
    cases hstep
    cases status <;> exact ⟨h, trivial⟩
  case reportingUsage.advance call child status =>
    cases hstep
    cases status with
    | none => exact ⟨h, trivial⟩
    | some word => exact ⟨h, hk⟩
  case retired.advance status =>
    refine hstep ▸ ⟨h.keep hp rfl, ?_⟩
    unfold detach
    split_ifs
    · exact hk
    · trivial
  case dropping.reserve status granted => exact hstep ▸ ⟨h.notifyParent hk, trivial⟩
  all_goals exact hstep ▸ ⟨h, trivial⟩

theorem Known.kernelStep (h : Known s.registry ended) (hstep : kernelStep s i input = some (s', k')) :
    Told ended (s', k') := by
  cases input <;> simp only [Family.kernelStep, Option.some.injEq, reduceCtorEq] at hstep
  case boot =>
    rw [← hstep, Family.boot]
    split
    · rename_i created child hcreate
      exact ⟨h.create rfl hcreate, trivial⟩
    · exact ⟨h, trivial⟩
  case run p =>
    split at hstep
    · rename_i entry hp
      split_ifs at hstep
      exact Option.some.inj hstep ▸ ⟨h.keep hp rfl, trivial⟩
    · cases hstep
  case discard p =>
    split_ifs at hstep
    exact Option.some.inj hstep ▸ ⟨h.remove, trivial⟩

theorem step_exit {p : Nat} {next : Shared × Phase} (hstep : step s i (.user p) (.exit raw) = some next) :
    next = (s, .retired p raw) := by
  rcases step_cases hstep with ⟨q, entry, hprocess, -, hmember⟩ | hkernel
  · cases hprocess
    exact (Option.some.inj hmember).symm
  · cases hkernel

theorem recordedStep_told {s s' : Recorded} {move : Ending ⊕ Input} (h : Known s.shared.registry s.ended)
    (hk : Traced s.ended k) (hstep : recordedStep s i k move = some (s', k')) :
    Told s'.ended (s'.shared, k') ∧ ∀ {l}, Traced s.ended l → Traced s'.ended l := by
  cases move with
  | inl e =>
    simp only [recordedStep] at hstep
    split at hstep
    · rename_i p
      obtain ⟨next, hnext, heq⟩ := Option.map_eq_some_iff.1 hstep
      cases step_exit hnext
      cases heq
      exact ⟨⟨fun q entry hq z hz => (h hq z hz).concat, e, List.mem_append_right _ (List.mem_singleton_self _), rfl⟩,
        Traced.concat⟩
    · cases hstep
  | inr input =>
    simp only [recordedStep] at hstep
    split_ifs at hstep with hordinary
    obtain ⟨next, hnext, heq⟩ := Option.map_eq_some_iff.1 hstep
    cases heq
    refine ⟨?_, id⟩
    rcases step_cases hnext with ⟨p, entry, hprocess, hp, hmember⟩ | hkernel
    · exact h.memberStep hp hk hordinary hprocess hmember
    · exact h.kernelStep hkernel

theorem recorded_stable : recorded.Stable (fun s => Known s.shared.registry s.ended) fun _ s => Traced s.ended where
  init := by
    rintro s ⟨hinit, -⟩ p entry hp
    rw [hinit] at hp
    cases hp
  start := by
    rintro s i k - rfl
    trivial
  shared h hk hact := (recordedStep_told h hk hact.choose_spec).1.1
  own h hk hact := (recordedStep_told h hk hact.choose_spec).1.2
  other _ h hk hl hact := (recordedStep_told h hk hact.choose_spec).2 hl

def Sole (s : Recorded) (p : Nat) (e : Ending) : Prop := ∀ ⦃other⦄, (p, other) ∈ s.ended → other = e

def Stores (s : Shared) (p : Nat) (call : Wait4) (child : Nat) (raw : Int) (e : Ending) : Prop :=
  ∃ word, report s p call child raw = (s, .reportingUsage p call child (some word)) ∧ e.ToldBy word

theorem stores_iff {child : Nat} {e : Ending} (haddress : call.statusAddress ≠ 0) :
    Stores s p call child e.status e ↔ e.Distinct := by
  unfold Stores report
  rw [if_neg haddress]
  split_ifs with hmin
  · refine ⟨?_, fun hdistinct => absurd hmin hdistinct.status_ne⟩
    rintro ⟨word, heq, -⟩
    cases (Prod.mk.inj heq).2
  · constructor
    · rintro ⟨word, heq, htold⟩
      cases heq
      exact (e.toldBy_iff_distinct hmin).1 htold
    · intro hdistinct
      exact ⟨_, rfl, (e.toldBy_iff_distinct hmin).2 hdistinct⟩

structure Faithful (s : Threads.State Recorded Nat Phase) : Prop where
  stored : ∀ {i p call child raw e}, s.own i = .reporting p call child raw → call.statusAddress ≠ 0 →
    Sole s.shared child e → (Stores s.shared.shared p call child raw e ↔ e.Distinct)
  returned : ∀ {i p call child word e}, s.own i = .returned p call (some word) (.reaped child) →
    Sole s.shared child e → (e.ToldBy word ↔ e.Distinct)

theorem status_told_iff {s : Threads.State Recorded Nat Phase} (h : recorded.system.Reachable s) : Faithful s := by
  obtain ⟨-, htraced⟩ := recorded_stable.reachable h
  refine ⟨?_, ?_⟩
  · intro i p call child raw e hown haddress hsole
    have hleft := htraced i
    rw [hown] at hleft
    obtain ⟨other, hmem, rfl⟩ := hleft
    cases hsole hmem
    exact stores_iff haddress
  · intro i p call child word e hown hsole
    have hleft := htraced i
    rw [hown] at hleft
    obtain ⟨raw, ⟨other, hmem, rfl⟩, hmin, rfl⟩ := hleft
    cases hsole hmem
    exact e.toldBy_iff_distinct hmin

def recordedMachine : Threads.State Recorded Nat Phase :=
  ⟨⟨emptyMachine.shared, []⟩, emptyMachine.own⟩

def forkAndReport (e : Ending) : List (Nat × (Ending ⊕ Input)) :=
  [(0, .inr .boot), (0, .inr (.fork true)), (0, .inr (.reserve true)), (0, .inr (.reserve true)), (1, .inr (.run 2)),
    (1, .inl e), (1, .inr .advance), (1, .inr (.reserve true)), (0, .inr (.wait ⟨BitVec.allOnes 64, 0x1000, 0, 0⟩)),
    (0, .inr .advance), (0, .inr .advance), (0, .inr .advance)]

theorem recorded_replay {Q : Threads.State Recorded Nat Phase → Prop} [DecidablePred Q]
    {script : List (Nat × (Ending ⊕ Input))}
    (h : (Threads.replay recordedStep recordedMachine script).any (fun s => decide (Q s)) = true) :
    ∃ s, recorded.system.Reachable s ∧ Q s := by
  have hinit : recorded.system.Reachable recordedMachine := .init ⟨⟨rfl, rfl⟩, fun _ => rfl⟩
  exact Threads.reachable_of_replay hinit (fun hstep => ⟨_, hstep⟩) h

theorem status_told_iff_seven : ∃ s, recorded.system.Reachable s ∧
    s.own 0 = .returned 1 ⟨BitVec.allOnes 64, 0x1000, 0, 0⟩ (some 0x700) (.reaped 2) ∧
    s.shared.ended = [(2, .exit 7)] ∧ Faithful s := by
  have hrun : (Threads.replay recordedStep recordedMachine (forkAndReport (.exit 7))).any (fun s =>
      decide (s.own 0 = .returned 1 ⟨BitVec.allOnes 64, 0x1000, 0, 0⟩ (some 0x700) (.reaped 2) ∧
        s.shared.ended = [(2, .exit 7)])) = true := by
    decide +kernel
  obtain ⟨s, hreach, hown, hended⟩ := recorded_replay hrun
  exact ⟨s, hreach, hown, hended, status_told_iff hreach⟩

/-- A child that calls `exit(-9)` is reported as killed by signal 9. -/
theorem exit_reported_as_kill : ∃ s, recorded.system.Reachable s ∧ s.shared.ended = [(2, .exit (-9))] ∧
    s.own 0 = .returned 1 ⟨BitVec.allOnes 64, 0x1000, 0, 0⟩ (some 9) (.reaped 2) ∧ Wait4.exitCode 9 = none ∧
    Wait4.termSignal 9 = some 9 := by
  have hrun : (Threads.replay recordedStep recordedMachine (forkAndReport (.exit (-9)))).any (fun s =>
      decide (s.own 0 = .returned 1 ⟨BitVec.allOnes 64, 0x1000, 0, 0⟩ (some 9) (.reaped 2) ∧
        s.shared.ended = [(2, .exit (-9))])) = true := by
    decide +kernel
  obtain ⟨s, hreach, hown, hended⟩ := recorded_replay hrun
  exact ⟨s, hreach, hended, hown, by decide, by decide⟩

end Family

end SudoOS
