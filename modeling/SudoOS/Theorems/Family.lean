import SudoOS.Kernel.Family

/-! Children are conserved. -/

namespace SudoOS

/-- Pairs that differ in their second components stay so when a new one is put behind them. -/
theorem nodup_map_snd_concat {α β : Type*} {pairs : List (α × β)} {a : α} {b : β} (h : (pairs.map Prod.snd).Nodup)
    (hb : b ∉ pairs.map Prod.snd) : ((pairs ++ [(a, b)]).map Prod.snd).Nodup := by
  rw [List.map_append, List.nodup_append]
  refine ⟨h, List.nodup_singleton b, ?_⟩
  rintro c hc d hd rfl
  have hcb : c = b := List.mem_singleton.1 hd
  exact hb (hcb ▸ hc)

theorem mem_map_snd_concat {α β : Type*} {pairs : List (α × β)} {a : α} {b c : β} :
    c ∈ (pairs ++ [(a, b)]).map Prod.snd ↔ c ∈ pairs.map Prod.snd ∨ c = b := by
  rw [List.map_append, List.mem_append, List.map_singleton, List.mem_singleton]

namespace ProcessRelations

variable {r r' : ProcessRelations} {child : Nat} {requested : Int}

def listed (r : ProcessRelations) : List Nat := r.children ++ r.zombieChildren.map Prod.fst

theorem listed_addChild {granted : Bool} (h : r.addChild child granted = .ok r') : r'.listed.Perm (child :: r.listed) := by
  unfold addChild at h
  split_ifs at h
  cases h
  show ((r.children ++ [child]) ++ _).Perm _
  rw [List.append_assoc]
  exact List.perm_middle

theorem listed_markChildZombie (r : ProcessRelations) (child : Nat) (status : Int) :
    (r.markChildZombie child status true).2.listed.Perm r.listed := by
  unfold markChildZombie
  by_cases hmem : child ∈ r.children
  · rw [if_pos hmem]
    show (r.children.erase child ++ (r.zombieChildren ++ [(child, status)]).map Prod.fst).Perm _
    rw [List.map_append, ← List.append_assoc]
    calc (r.children.erase child ++ r.zombieChildren.map Prod.fst) ++ [child]
        |>.Perm (child :: (r.children.erase child ++ r.zombieChildren.map Prod.fst)) := List.perm_append_singleton _ _
      _ |>.Perm (r.children ++ r.zombieChildren.map Prod.fst) := (List.perm_cons_erase hmem).symm.append_right _
  · rw [if_neg hmem]

theorem listed_waitZombieChild {raw : Int} (h : r.waitZombieChild requested = (some (child, raw), r')) :
    r.listed.Perm (child :: r'.listed) := by
  obtain ⟨hfind, rfl⟩ := Prod.mk.inj h
  have hperm : r.zombieChildren.Perm ((child, raw) :: r.zombieChildren.eraseP (isRequested requested ·.1)) := by
    obtain ⟨hreq, before, after, hsplit, hbefore⟩ := List.find?_eq_some_iff_append.1 hfind
    have herase : r.zombieChildren.eraseP (isRequested requested ·.1) = before ++ after := by
      rw [hsplit, List.eraseP_append_right _ (fun z hz => by simpa using hbefore z hz)]
      exact congrArg (before ++ ·) (List.eraseP_cons_of_pos hreq)
    rw [herase, hsplit]
    exact List.perm_middle
  show (r.children ++ r.zombieChildren.map Prod.fst).Perm (child :: (r.children ++ _))
  exact ((hperm.map Prod.fst).append_left r.children).trans List.perm_middle

theorem hasChild_iff : r.hasChild requested = true ↔ ∃ child ∈ r.listed, isRequested requested child = true := by
  simp only [hasChild, hasZombieChild, listed, Bool.or_eq_true, List.any_eq_true, List.mem_append, List.mem_map]
  constructor
  · rintro (⟨child, hmem, hreq⟩ | ⟨zombie, hmem, hreq⟩)
    · exact ⟨child, .inl hmem, hreq⟩
    · exact ⟨zombie.1, .inr ⟨zombie, hmem, rfl⟩, hreq⟩
  · rintro ⟨child, hmem | ⟨zombie, hmem, rfl⟩, hreq⟩
    · exact .inl ⟨child, hmem, hreq⟩
    · exact .inr ⟨zombie, hmem, hreq⟩

end ProcessRelations

namespace Family

variable {s s' : Shared} {i j p : Nat} {entry : Entry} {k k' : Phase} {input : Input}

def Shared.Reaped (s : Shared) (child : Nat) : Prop := child ∈ s.reaped.map Prod.snd

structure Accounted (s : Shared) (p : Nat) (r : ProcessRelations) : Prop where
  once : r.listed.Nodup
  exactly : ∀ {child}, child ∈ r.listed ↔ (p, child) ∈ s.forked ∧ ¬ s.Reaped child

structure Conserved (s : Shared) : Prop where
  registered : ∀ {p entry}, s.registry p = some entry → p < s.nextId
  allocated : ∀ {p child}, (p, child) ∈ s.forked → p < s.nextId ∧ child < s.nextId
  forked_once : (s.forked.map Prod.snd).Nodup
  reaped_once : (s.reaped.map Prod.snd).Nodup
  reaped_forked : ∀ {child}, s.Reaped child → child ∈ s.forked.map Prod.snd
  accounted : ∀ {p entry}, s.registry p = some entry → Accounted s p entry.relations

def Sound (i : Nat) (s : Shared) : Phase → Prop
  | .forking _ child => s.maker child = i ∧ child < s.nextId ∧ child ∉ s.forked.map Prod.snd
  | .reporting _ _ child _ | .reportingUsage _ _ child _ | .returned _ _ _ (.reaped child) => (i, child) ∈ s.reaped
  | _ => True

structure Grows (i : Nat) (s s' : Shared) : Prop where
  nextId : s.nextId ≤ s'.nextId
  maker : ∀ {child}, child < s.nextId → s'.maker child = s.maker child
  forked : ∀ {child}, child ∈ s'.forked.map Prod.snd → child ∈ s.forked.map Prod.snd ∨ s.maker child = i
  reaped : ∀ {entry}, entry ∈ s.reaped → entry ∈ s'.reaped

theorem Grows.refl (i : Nat) (s : Shared) : Grows i s s := ⟨Nat.le_refl _, fun _ => rfl, .inl, id⟩

theorem Sound.other (h : Sound j s k) (hne : j ≠ i) (hgrows : Grows i s s') : Sound j s' k := by
  cases k with
  | forking p child =>
    obtain ⟨hmaker, hlt, hforked⟩ := h
    refine ⟨(hgrows.maker hlt).trans hmaker, Nat.lt_of_lt_of_le hlt hgrows.nextId, fun hmem => ?_⟩
    rcases hgrows.forked hmem with hold | hmade
    · exact hforked hold
    · exact hne (hmaker.symm.trans hmade)
  | reporting p call child raw | reportingUsage p call child status => exact hgrows.reaped h
  | returned p call status result =>
    cases result with
    | reaped child => exact hgrows.reaped h
    | _ => trivial
  | _ => trivial

/-! ### One step -/

structure Kept (i : Nat) (s : Shared) (next : Shared × Phase) : Prop where
  conserved : Conserved next.1
  sound : Sound i next.1 next.2
  grows : Grows i s next.1

theorem Conserved.same (h : Conserved s) (hk : Sound i s k') : Kept i s (s, k') := ⟨h, hk, .refl i s⟩

/-- A step that changes no list and makes no process. -/
theorem Conserved.keep (h : Conserved s) (s' : Shared) (hnext : s.nextId ≤ s'.nextId) (hmaker : s'.maker = s.maker)
    (hforked : s'.forked = s.forked) (hreaped : s'.reaped = s.reaped)
    (hregistry : ∀ {p entry}, s'.registry p = some entry →
      ∃ old, s.registry p = some old ∧ entry.relations.listed.Perm old.relations.listed) :
    Conserved s' ∧ Grows i s s' := by
  refine ⟨⟨?_, ?_, hforked ▸ h.forked_once, hreaped ▸ h.reaped_once, ?_, ?_⟩, hnext, fun _ => congrFun hmaker _, ?_, ?_⟩
  · intro p entry hp
    obtain ⟨old, hold, -⟩ := hregistry hp
    exact Nat.lt_of_lt_of_le (h.registered hold) hnext
  · intro p child hmem
    obtain ⟨hp, hchild⟩ := h.allocated (hforked ▸ hmem)
    exact ⟨Nat.lt_of_lt_of_le hp hnext, Nat.lt_of_lt_of_le hchild hnext⟩
  · intro child hmem
    rw [hforked]
    refine h.reaped_forked ?_
    unfold Shared.Reaped at hmem ⊢
    rwa [← hreaped]
  · intro p entry hp
    obtain ⟨old, hold, hperm⟩ := hregistry hp
    obtain ⟨honce, hexactly⟩ := h.accounted hold
    refine ⟨hperm.nodup_iff.2 honce, ?_⟩
    intro child
    unfold Shared.Reaped
    rw [hperm.mem_iff, hforked, hreaped]
    exact hexactly
  · intro child hmem
    exact .inl (hforked ▸ hmem)
  · intro entry hmem
    exact hreaped.symm ▸ hmem

theorem registry_put {q : Nat} {old new : Entry} (hp : s.registry p = some entry)
    (hperm : new.relations.listed.Perm entry.relations.listed) (hq : (s.put p new).registry q = some old) :
    ∃ before, s.registry q = some before ∧ old.relations.listed.Perm before.relations.listed := by
  by_cases hqp : q = p
  · subst hqp
    rw [Shared.put_registry_self] at hq
    cases hq
    exact ⟨entry, hp, hperm⟩
  · rw [Shared.put_registry_of_ne hqp] at hq
    exact ⟨old, hq, .refl _⟩

theorem registry_remove {q : Nat} {old : Entry} (hq : Function.update s.registry p none q = some old) :
    ∃ before, s.registry q = some before ∧ old.relations.listed.Perm before.relations.listed := by
  by_cases hqp : q = p
  · subst hqp
    rw [Function.update_self] at hq
    cases hq
  · rw [Function.update_of_ne hqp] at hq
    exact ⟨old, hq, .refl _⟩

theorem Conserved.create {child : Nat} (h : Conserved s) (hempty : entry.relations.listed = [])
    (hcreate : create s i entry = some (s', child)) :
    Conserved s' ∧ Grows i s s' ∧ s'.maker child = i ∧ child < s'.nextId ∧ child ∉ s'.forked.map Prod.snd := by
  unfold Family.create at hcreate
  split_ifs at hcreate
  obtain ⟨rfl, rfl⟩ := Prod.mk.inj (Option.some.inj hcreate)
  have hfresh : s.nextId ∉ s.forked.map Prod.snd := by
    intro hmem
    obtain ⟨⟨p, child⟩, hpair, rfl⟩ := List.mem_map.1 hmem
    exact Nat.lt_irrefl _ (h.allocated hpair).2
  refine ⟨⟨?_, ?_, h.forked_once, h.reaped_once, h.reaped_forked, ?_⟩, ⟨Nat.le_succ _, ?_, .inl, id⟩,
    Function.update_self _ _ _, Nat.lt_succ_self _, hfresh⟩
  · intro p old hp
    by_cases hpn : p = s.nextId
    · exact hpn ▸ Nat.lt_succ_self _
    · rw [show (s.put s.nextId entry).registry p = s.registry p from Shared.put_registry_of_ne hpn] at hp
      exact Nat.lt_succ_of_lt (h.registered hp)
  · intro p child hmem
    exact ⟨Nat.lt_succ_of_lt (h.allocated hmem).1, Nat.lt_succ_of_lt (h.allocated hmem).2⟩
  · intro p old hp
    by_cases hpn : p = s.nextId
    · subst hpn
      cases (Shared.put_registry_self s s.nextId entry).symm.trans hp
      refine ⟨hempty ▸ List.nodup_nil, fun {child} => ⟨fun hmem => ?_, fun hmem => ?_⟩⟩
      · rw [hempty] at hmem
        exact absurd hmem List.not_mem_nil
      · exact absurd (h.allocated hmem.1).1 (Nat.lt_irrefl _)
    · rw [show (s.put s.nextId entry).registry p = s.registry p from Shared.put_registry_of_ne hpn] at hp
      exact ⟨(h.accounted hp).once, (h.accounted hp).exactly⟩
  · intro child hlt
    exact Function.update_of_ne (Nat.ne_of_lt hlt) _ _

theorem Conserved.parent_unique {q child : Nat} (h : Conserved s) (hp : (p, child) ∈ s.forked)
    (hq : (q, child) ∈ s.forked) : q = p :=
  (Prod.mk.inj (List.inj_on_of_nodup_map h.forked_once hq hp rfl)).1

theorem Conserved.addChild {child : Nat} {granted : Bool} (h : Conserved s) (hp : s.registry p = some entry)
    (hk : Sound i s (.forking p child)) : Kept i s (addChild s p child entry granted) := by
  obtain ⟨hmaker, hlt, hfresh⟩ := hk
  unfold Family.addChild
  split
  · rename_i relations hadd
    have hlisted := ProcessRelations.listed_addChild hadd
    have hunreaped : ¬ s.Reaped child := fun hmem => hfresh (h.reaped_forked hmem)
    refine ⟨⟨?_, ?_, ?_, h.reaped_once, ?_, ?_⟩, trivial, Nat.le_refl _, fun _ => rfl, ?_, id⟩
    · intro q old hq
      obtain rfl | hne := eq_or_ne q p
      · exact h.registered hp
      · exact h.registered ((Shared.put_registry_of_ne hne).symm.trans hq)
    · intro q c hmem
      rcases List.mem_append.1 hmem with hold | hnew
      · exact h.allocated hold
      · obtain ⟨rfl, rfl⟩ := Prod.mk.inj (List.mem_singleton.1 hnew)
        exact ⟨h.registered hp, hlt⟩
    · exact nodup_map_snd_concat h.forked_once hfresh
    · intro c hc
      exact mem_map_snd_concat.2 (.inl (h.reaped_forked hc))
    · intro q old hq
      obtain rfl | hne := eq_or_ne q p
      · cases (Shared.put_registry_self s q _).symm.trans hq
        obtain ⟨honce, hexactly⟩ := h.accounted hp
        refine ⟨?_, fun {c} => ?_⟩
        · exact hlisted.nodup_iff.2 (List.nodup_cons.2 ⟨fun hmem => hfresh
            (List.mem_map_of_mem (hexactly.1 hmem).1), honce⟩)
        · show c ∈ relations.listed ↔ (q, c) ∈ s.forked ++ [(q, child)] ∧ ¬ s.Reaped c
          rw [hlisted.mem_iff, List.mem_cons, hexactly, List.mem_append, List.mem_singleton, Prod.mk.injEq]
          constructor
          · rintro (rfl | ⟨hforked, hreaped⟩)
            · exact ⟨.inr ⟨rfl, rfl⟩, hunreaped⟩
            · exact ⟨.inl hforked, hreaped⟩
          · rintro ⟨hforked | ⟨-, rfl⟩, hreaped⟩
            · exact .inr ⟨hforked, hreaped⟩
            · exact .inl rfl
      · obtain ⟨honce, hexactly⟩ := h.accounted ((Shared.put_registry_of_ne hne).symm.trans hq)
        refine ⟨honce, fun {c} => hexactly.trans (and_congr_left fun _ => ?_)⟩
        show _ ↔ (q, c) ∈ s.forked ++ [(p, child)]
        simp [hne]
    · intro c hmem
      rcases mem_map_snd_concat.1 hmem with hold | rfl
      · exact .inl hold
      · exact .inr hmaker
  · obtain ⟨hconserved, hgrows⟩ := h.keep { s with registry := Function.update s.registry child none } (i := i)
      (Nat.le_refl _) rfl rfl rfl registry_remove
    exact ⟨hconserved, trivial, hgrows⟩

theorem Conserved.waitZombieChild {call : Wait4} (h : Conserved s) (hp : s.registry p = some entry) :
    Kept i s (waitZombieChild s i p entry call) := by
  unfold Family.waitZombieChild
  split
  · rename_i child raw relations hwait
    have hlisted := ProcessRelations.listed_waitZombieChild hwait
    obtain ⟨honce, hexactly⟩ := h.accounted hp
    obtain ⟨hforked, hunreaped⟩ := hexactly.1 (hlisted.mem_iff.2 List.mem_cons_self)
    obtain ⟨hnotin, honce'⟩ := List.nodup_cons.1 (hlisted.nodup_iff.1 honce)
    refine ⟨⟨?_, h.allocated, h.forked_once, ?_, ?_, ?_⟩, List.mem_append_right _ (List.mem_singleton_self _),
      Nat.le_refl _, fun _ => rfl, .inl, fun hmem => List.mem_append_left _ hmem⟩
    · intro q old hq
      obtain rfl | hne := eq_or_ne q p
      · exact h.registered hp
      · exact h.registered ((Shared.put_registry_of_ne hne).symm.trans hq)
    · exact nodup_map_snd_concat h.reaped_once hunreaped
    · intro c hc
      rcases mem_map_snd_concat.1 hc with hold | rfl
      · exact h.reaped_forked hold
      · exact List.mem_map_of_mem hforked
    · intro q old hq
      obtain rfl | hne := eq_or_ne q p
      · cases (Shared.put_registry_self s q _).symm.trans hq
        refine ⟨honce', fun {c} => ?_⟩
        show c ∈ relations.listed ↔ (q, c) ∈ s.forked ∧ c ∉ (s.reaped ++ [(i, child)]).map Prod.snd
        rw [mem_map_snd_concat, not_or, ← and_assoc]
        constructor
        · intro hmem
          exact ⟨hexactly.1 (hlisted.mem_iff.2 (List.mem_cons_of_mem _ hmem)), fun hc => hnotin (hc ▸ hmem)⟩
        · rintro ⟨hmem, hc⟩
          exact (List.mem_cons.1 (hlisted.mem_iff.1 (hexactly.2 hmem))).resolve_left hc
      · obtain ⟨hother, hexact⟩ := h.accounted ((Shared.put_registry_of_ne hne).symm.trans hq)
        refine ⟨hother, fun {c} => hexact.trans (and_congr_right fun hc => ?_)⟩
        show _ ↔ c ∉ (s.reaped ++ [(i, child)]).map Prod.snd
        rw [mem_map_snd_concat, not_or]
        -- the child that is taken is not one of theirs
        exact ⟨fun hr => ⟨hr, fun hcc => hne (h.parent_unique hforked (hcc ▸ hc))⟩, And.left⟩
  · exact h.same trivial

/-- A step that only rewrites the entry of a process, up to the order of its lists. -/
theorem Conserved.put {q : Nat} {old new : Entry} {next : Nat} (h : Conserved s) (hq : s.registry q = some old)
    (hperm : new.relations.listed.Perm old.relations.listed) (hnext : s.nextId ≤ next)
    (hk : Sound i { s.put q new with nextId := next } k') : Kept i s ({ s.put q new with nextId := next }, k') := by
  obtain ⟨hconserved, hgrows⟩ := h.keep { s.put q new with nextId := next } (i := i) hnext rfl rfl rfl
    (registry_put hq hperm)
  exact ⟨hconserved, hk, hgrows⟩

theorem Conserved.panicked (h : Conserved s) (hk : Sound i { s with panicked := true } k') :
    Kept i s ({ s with panicked := true }, k') := by
  obtain ⟨hconserved, hgrows⟩ := h.keep { s with panicked := true } (i := i) (Nat.le_refl _) rfl rfl rfl
    fun hp => ⟨_, hp, .refl _⟩
  exact ⟨hconserved, hk, hgrows⟩

theorem Conserved.fork {copied : Bool} (h : Conserved s) : Kept i s (fork s i p copied) := by
  unfold Family.fork
  split
  · exact h.panicked trivial
  · rename_i created child hcreate
    obtain ⟨hconserved, hgrows, hsound⟩ := h.create rfl hcreate
    split_ifs
    · exact ⟨hconserved, hsound, hgrows⟩
    · obtain ⟨hconserved', -⟩ := hconserved.keep { created with registry := Function.update created.registry child none }
        (i := i) (Nat.le_refl _) rfl rfl rfl registry_remove
      exact ⟨hconserved', trivial, hgrows.nextId, hgrows.maker, hgrows.forked, hgrows.reaped⟩

theorem Conserved.createInitialThread {child : Nat} {granted : Bool} (h : Conserved s) :
    Kept i s (createInitialThread s p child granted) := by
  unfold Family.createInitialThread
  split
  · rename_i old hchild
    split_ifs
    · exact h.put hchild (.refl _) (Nat.le_refl _) trivial
    · exact h.same trivial
  · exact h.same trivial

theorem Conserved.createThread {admitted : Bool} (h : Conserved s) (hp : s.registry p = some entry) :
    Kept i s (createThread s p entry admitted) := by
  unfold Family.createThread
  split_ifs
  · exact h.same trivial
  · exact h.put hp (.refl _) (Nat.le_succ _) trivial
  · exact h.panicked trivial

theorem Conserved.notifyParent {status : Int} (h : Conserved s) : Kept i s (notifyParent s p entry status true,
    .dropped) := by
  unfold Family.notifyParent
  split
  · exact h.same trivial
  · split
    · exact h.same trivial
    · rename_i parent hparent
      exact h.put hparent (ProcessRelations.listed_markChildZombie _ _ _) (Nat.le_refl _) trivial

/-- There is memory for every zombie. -/
def granted : Phase → Input → Bool
  | .dropping _ _, .reserve false => false
  | _, _ => true

def Granted (k : Phase) (input : Input) : Prop := granted k input = true

theorem Conserved.memberStep (h : Conserved s) (hp : s.registry p = some entry) (hk : Sound i s k)
    (hgranted : Granted k input)
    (hprocess : k.process = some p) (hstep : memberStep s i p entry k input = some (s', k')) : Kept i s (s', k') := by
  cases k <;> cases input <;> simp only [Family.memberStep, Option.some.injEq, reduceCtorEq] at hstep <;>
    cases hprocess
  case user.fork copied => exact hstep ▸ h.fork
  case forking.reserve child granted => exact hstep ▸ h.addChild hp hk
  case starting.reserve child granted => exact hstep ▸ h.createInitialThread
  case user.clone admitted => exact hstep ▸ h.createThread hp
  case waiting.advance call => exact hstep ▸ h.waitZombieChild hp
  case user.wait call =>
    refine hstep ▸ h.same ?_
    unfold enterWait
    split_ifs <;> trivial
  case checking.advance call =>
    refine hstep ▸ h.same ?_
    unfold Family.hasChild
    split_ifs <;> trivial
  case blocking.advance call =>
    refine hstep ▸ h.same ?_
    unfold block
    split_ifs <;> trivial
  case reporting.advance call child raw =>
    rw [← hstep, report]
    split_ifs
    · exact h.same hk
    · exact h.panicked hk
    · exact h.same hk
  case reporting.active call child raw | reportingUsage.advance call child status => exact hstep ▸ h.same hk
  case reporting.fault call child raw | reportingUsage.fault call child status =>
    split_ifs at hstep
    exact Option.some.inj hstep ▸ h.same trivial
  case retired.advance status =>
    refine hstep ▸ h.put hp (.refl _) (Nat.le_refl _) ?_
    split_ifs <;> trivial
  case dropping.reserve status granted =>
    cases granted with
    | false => cases hgranted
    | true => exact hstep ▸ h.notifyParent
  all_goals exact hstep ▸ h.same trivial

theorem Conserved.kernelStep (h : Conserved s) (hstep : kernelStep s i input = some (s', k')) : Kept i s (s', k') := by
  cases input <;> simp only [Family.kernelStep, Option.some.injEq, reduceCtorEq] at hstep
  case boot =>
    rw [← hstep, Family.boot]
    split
    · rename_i created child hcreate
      obtain ⟨hconserved, hgrows, -⟩ := h.create rfl hcreate
      exact ⟨hconserved, trivial, hgrows⟩
    · exact h.panicked trivial
  case run p =>
    split at hstep
    · rename_i entry hp
      split_ifs at hstep
      exact Option.some.inj hstep ▸ h.put hp (.refl _) (Nat.le_refl _) trivial
    · cases hstep
  case discard p =>
    split_ifs at hstep
    obtain ⟨hconserved, hgrows⟩ := h.keep { s with registry := Function.update s.registry p none } (i := i)
      (Nat.le_refl _) rfl rfl rfl registry_remove
    exact Option.some.inj hstep ▸ ⟨hconserved, trivial, hgrows⟩

theorem step_cases {next : Shared × Phase} (hstep : step s i k input = some next) :
    (∃ p entry, k.process = some p ∧ s.registry p = some entry ∧ memberStep s i p entry k input = some next) ∨
      kernelStep s i input = some next := by
  unfold step at hstep
  by_cases hpanicked : s.panicked = true
  · rw [if_pos hpanicked] at hstep
    cases hstep
  · rw [if_neg hpanicked] at hstep
    split at hstep
    · rename_i p hprocess
      split at hstep
      · rename_i entry hp
        exact .inl ⟨p, entry, hprocess, hp, hstep⟩
      · cases hstep
    · split_ifs at hstep
      exact .inr hstep

theorem step_kept (h : Conserved s) (hk : Sound i s k) (hgranted : Granted k input)
    (hstep : step s i k input = some (s', k')) : Kept i s (s', k') := by
  rcases step_cases hstep with ⟨p, entry, hprocess, hp, hmember⟩ | hkernel
  · exact h.memberStep hp hk hgranted hprocess hmember
  · exact h.kernelStep hkernel

theorem stable : (threads Granted).Stable Conserved Sound where
  init := by
    intro s hinit
    rw [hinit]
    refine ⟨?_, ?_, List.nodup_nil, List.nodup_nil, ?_, ?_⟩
    · intro p entry hp
      cases hp
    · intro p child hmem
      cases hmem
    · intro child hmem
      cases hmem
    · intro p entry hp
      cases hp
  start := by
    rintro s i k - rfl
    trivial
  shared h hk hact := (step_kept h hk hact.choose_spec.1 hact.choose_spec.2).conserved
  own h hk hact := (step_kept h hk hact.choose_spec.1 hact.choose_spec.2).sound
  other hne h hk hl hact := hl.other hne (step_kept h hk hact.choose_spec.1 hact.choose_spec.2).grows

/-! ### Runs -/

/-- Every child that was forked and not yet reaped is in exactly one list of its parent, and there once; no child is reaped
twice; and the call that returns a child is the one that reaped it. -/
structure Conserves (s : Threads.State Shared Nat Phase) : Prop where
  listed : ∀ {p child entry}, s.shared.registry p = some entry → (p, child) ∈ s.shared.forked → ¬ s.shared.Reaped child →
    (child ∈ entry.relations.children ∧ child ∉ entry.relations.zombieChildren.map Prod.fst ∨
      child ∉ entry.relations.children ∧ child ∈ entry.relations.zombieChildren.map Prod.fst) ∧
    entry.relations.listed.count child = 1
  reaped_once : (s.shared.reaped.map Prod.snd).Nodup
  returned : ∀ {i p call status child}, s.own i = .returned p call status (.reaped child) → (i, child) ∈ s.shared.reaped

/-- Only the check of both lists makes a call report that there is no such child. -/
theorem memberStep_echild {q : Nat} {call : Wait4} {status : Option (BitVec 32)} (hprocess : k.process = some p)
    (hstep : memberStep s i p entry k input = some (s', .returned q call status .echild)) :
    q = p ∧ entry.relations.hasChild call.requested = false := by
  cases k <;> cases input <;> simp only [Family.memberStep, Option.some.injEq, reduceCtorEq, Prod.mk.injEq,
    and_false] at hstep <;>
    cases hprocess
  case checking.advance call =>
    obtain ⟨-, hphase⟩ := hstep
    unfold Family.hasChild at hphase
    split_ifs at hphase with hnone
    · cases hphase
      exact ⟨rfl, by simpa using hnone⟩
    · cases hphase
  case user.fork copied =>
    unfold Family.fork at hstep
    split at hstep
    · cases hstep
    · split_ifs at hstep <;> cases hstep
  case forking.reserve child granted =>
    unfold Family.addChild at hstep
    split at hstep <;> cases hstep
  case starting.reserve child granted =>
    unfold Family.createInitialThread at hstep
    split at hstep
    · split_ifs at hstep <;> cases hstep
    · cases hstep
  case user.clone admitted =>
    unfold Family.createThread at hstep
    split_ifs at hstep <;> cases hstep
  case user.wait call =>
    obtain ⟨-, hphase⟩ := hstep
    unfold enterWait at hphase
    split_ifs at hphase
    cases hphase
  case waiting.advance call =>
    unfold Family.waitZombieChild at hstep
    split at hstep <;> cases hstep
  case blocking.advance call =>
    obtain ⟨-, hphase⟩ := hstep
    unfold block at hphase
    split_ifs at hphase
  case retired.advance status =>
    unfold detach at hstep
    split_ifs at hstep <;> cases hstep
  case reporting.advance call child raw =>
    unfold report at hstep
    split_ifs at hstep <;> cases hstep
  case reporting.fault call child raw | reportingUsage.fault call child status =>
    split_ifs at hstep
    cases hstep
  all_goals cases hstep.2

theorem kernelStep_phase (hstep : kernelStep s i input = some (s', k')) : k' = .unborn ∨ ∃ p, k' = .user p := by
  cases input <;> simp only [Family.kernelStep, Option.some.injEq, reduceCtorEq] at hstep
  case boot =>
    unfold Family.boot at hstep
    split at hstep <;> cases hstep
    · exact .inr ⟨_, rfl⟩
    · exact .inl rfl
  case run p =>
    split at hstep
    · split_ifs at hstep
      cases hstep
      exact .inr ⟨p, rfl⟩
    · cases hstep
  case discard p =>
    split_ifs at hstep
    cases hstep
    exact .inl rfl

/-- Which children a call asks for, where `group` is the process group of each process: one child by its id, the group of
the caller, any child, or the group whose number is negated. -/
def Wait4Matches (group : Nat → Int) (call : Wait4) (caller child : Nat) : Prop :=
  if 0 < call.pid.toInt then call.pid.toInt = child
  else if call.pid.toInt = 0 then group child = group caller
  else call.pid.toInt = -1 ∨ group child = -call.pid.toInt

theorem Wait4Matches.isRequested {group : Nat → Int} {call : Wait4} {caller child : Nat}
    (h : Wait4Matches group call caller child)
    (hpid : -1 ≤ call.pid.toInt) : ProcessRelations.isRequested call.requested child = true := by
  unfold ProcessRelations.isRequested Wait4.requested
  by_cases hany : call.pid = 0 ∨ call.pid = BitVec.allOnes 64
  · rw [if_pos hany]
    rfl
  rw [if_neg hany]
  have hzero : call.pid.toInt ≠ 0 := fun hz => hany (.inl (BitVec.eq_of_toInt_eq hz))
  have hones : call.pid.toInt ≠ -1 := fun hz => hany (.inr (BitVec.eq_of_toInt_eq hz))
  unfold Wait4Matches at h
  rw [if_pos (by omega)] at h
  have hchild : BitVec.ofNat 64 child = call.pid := by
    rw [← BitVec.ofInt_natCast, ← h, BitVec.ofInt_toInt]
  simp [hchild]

/-- The step that makes a call report that there is no such child finds every child that matches reaped, unless the call
asks for a group by its number. -/
def Truthful (s : Threads.State Shared Nat Phase) : Prop :=
  ∀ ⦃allowed i t p call status⦄, (threads allowed).system.step s i t → t.own i = .returned p call status .echild →
    -1 ≤ call.pid.toInt → ∀ group child, (p, child) ∈ s.shared.forked → Wait4Matches group call p child →
      s.shared.Reaped child

theorem Conserved.truthful {s : Threads.State Shared Nat Phase} (h : Conserved s.shared) : Truthful s := by
  rintro allowed i t p call status ⟨⟨input, -, hact⟩, -⟩ hreturned hpid group child hforked hmatches
  rw [hreturned] at hact
  rcases step_cases hact with ⟨q, entry, hprocess, hq, hmember⟩ | hkernel
  · obtain ⟨rfl, hnone⟩ := memberStep_echild hprocess hmember
    by_contra hunreaped
    have hlisted := (h.accounted hq).exactly.2 ⟨hforked, hunreaped⟩
    exact Bool.noConfusion (hnone.symm.trans (ProcessRelations.hasChild_iff.2 ⟨child, hlisted, hmatches.isRequested hpid⟩))
  · rcases kernelStep_phase hkernel with hphase | ⟨q, hphase⟩ <;> cases hphase

theorem Conserved.conserves {s : Threads.State Shared Nat Phase} (h : Conserved s.shared)
    (hsound : ∀ i, Sound i s.shared (s.own i)) : Conserves s := by
  refine ⟨?_, h.reaped_once, ?_⟩
  · intro p child entry hp hforked hunreaped
    obtain ⟨honce, hexactly⟩ := h.accounted hp
    have hlisted := hexactly.2 ⟨hforked, hunreaped⟩
    refine ⟨?_, List.count_eq_one_of_mem honce hlisted⟩
    have hdisjoint := List.disjoint_of_nodup_append honce
    rcases List.mem_append.1 hlisted with hchild | hzombie
    · exact .inl ⟨hchild, fun hzombie => hdisjoint hchild hzombie⟩
    · exact .inr ⟨fun hchild => hdisjoint hchild hzombie, hzombie⟩
  · intro i p call status child hi
    have hk := hsound i
    rw [hi] at hk
    exact hk

/-- Children are conserved in every run in which no parent is refused the memory for a zombie. -/
theorem children_conserved {s : Threads.State Shared Nat Phase} (h : (threads Granted).system.Reachable s) :
    Conserves s ∧ Truthful s := by
  obtain ⟨hconserved, hsound⟩ := stable.reachable h
  exact ⟨hconserved.conserves hsound, hconserved.truthful⟩

def emptyMachine : Threads.State Shared Nat Phase := ⟨⟨1, fun _ => none, fun _ => 0, [], [], false⟩, fun _ => .unborn⟩

def forkAndWait (memory : Bool) : List (Nat × Input) :=
  [(0, .boot), (0, .fork true), (0, .reserve true), (0, .reserve true), (1, .run 2), (1, .exit 7), (1, .advance),
    (1, .reserve memory), (0, .wait ⟨BitVec.allOnes 64, 0, 0, 0⟩), (0, .advance), (0, .advance)]

theorem emptyMachine_reachable (allowed : Phase → Input → Prop) : (threads allowed).system.Reachable emptyMachine :=
  .init ⟨rfl, fun _ => rfl⟩

theorem reachable_of_granted {Q : Threads.State Shared Nat Phase → Prop} [DecidablePred Q] {script : List (Nat × Input)}
    (h : (Threads.replay (Threads.guarded (fun _ _ => granted) step) emptyMachine script).any (fun s => decide (Q s)) =
      true) :
    ∃ s, (threads Granted).system.Reachable s ∧ Q s := by
  refine Threads.reachable_of_replay (emptyMachine_reachable _) (fun hstep => ?_) h
  exact ⟨_, Threads.guarded_eq_some hstep⟩

theorem children_conserved_waited : ∃ s, (threads Granted).system.Reachable s ∧ s.own 0 =
    .reportingUsage 1 ⟨BitVec.allOnes 64, 0, 0, 0⟩ 2 none ∧ s.shared.reaped = [(0, 2)] ∧ Conserves s ∧ Truthful s := by
  have hrun : (Threads.replay (Threads.guarded (fun _ _ => granted) step) emptyMachine (forkAndWait true)).any (fun s =>
      decide (s.own 0 = .reportingUsage 1 ⟨BitVec.allOnes 64, 0, 0, 0⟩ 2 none ∧ s.shared.reaped = [(0, 2)])) = true := by
    decide +kernel
  obtain ⟨s, hreach, hown, hreaped⟩ := reachable_of_granted hrun
  exact ⟨s, hreach, hown, hreaped, children_conserved hreach⟩

/-- Without memory for the zombie the child is in neither list, and the parent is told that it has no child. -/
theorem child_lost : ∃ s entry, (threads fun _ _ => True).system.Reachable s ∧ s.shared.registry 1 = some entry ∧
    (1, 2) ∈ s.shared.forked ∧ ¬ s.shared.Reaped 2 ∧ 2 ∉ entry.relations.children ∧
    2 ∉ entry.relations.zombieChildren.map Prod.fst ∧
    s.own 0 = .returned 1 ⟨BitVec.allOnes 64, 0, 0, 0⟩ none .echild := by
  have hrun : (Threads.replay step emptyMachine (forkAndWait false)).any (fun s =>
      decide (s.shared.registry 1 = some ⟨.new, 1, 0⟩ ∧ s.shared.forked = [(1, 2)] ∧ s.shared.reaped = [] ∧
        s.own 0 = .returned 1 ⟨BitVec.allOnes 64, 0, 0, 0⟩ none .echild)) = true := by
    decide +kernel
  obtain ⟨s, hreach, hregistry, hforked, hreaped, hown⟩ := Threads.reachable_of_replay
    (emptyMachine_reachable fun _ _ => True) (fun hstep => ⟨_, trivial, hstep⟩) hrun
  refine ⟨s, _, hreach, hregistry, ?_, ?_, List.not_mem_nil, List.not_mem_nil, hown⟩
  · rw [hforked]
    exact List.mem_singleton_self _
  · unfold Shared.Reaped
    rw [hreaped]
    exact List.not_mem_nil

/-- A call that asks for the group of the child by its number, here 2, is told that there is no child, with all memory
granted. -/
theorem group_not_found : ∃ s, (threads Granted).system.Reachable s ∧ (1, 2) ∈ s.shared.forked ∧ ¬ s.shared.Reaped 2 ∧
    s.own 0 = .returned 1 ⟨-2, 0, 0, 0⟩ none .echild ∧ Wait4Matches (fun p => p) ⟨-2, 0, 0, 0⟩ 1 2 := by
  have hrun : (Threads.replay (Threads.guarded (fun _ _ => granted) step) emptyMachine
      [(0, .boot), (0, .fork true), (0, .reserve true), (0, .reserve true), (0, .wait ⟨-2, 0, 0, 0⟩), (0, .advance),
        (0, .advance)]).any (fun s => decide (s.shared.forked = [(1, 2)] ∧ s.shared.reaped = [] ∧
          s.own 0 = .returned 1 ⟨-2, 0, 0, 0⟩ none .echild)) = true := by
    decide +kernel
  obtain ⟨s, hreach, hforked, hreaped, hown⟩ := reachable_of_granted hrun
  refine ⟨s, hreach, ?_, ?_, hown, ?_⟩
  · rw [hforked]
    exact List.mem_singleton_self _
  · unfold Shared.Reaped
    rw [hreaped]
    exact List.not_mem_nil
  · unfold Wait4Matches
    decide

end Family

end SudoOS
