import SudoOS.Kernel.Readdir
import SudoOS.Theorems.VfsLookup

/-! What a listing of a directory returns while names are created and removed. -/

namespace SudoOS

namespace Vfs

open Program

/-! ### The table -/

section keys
variable {α : Type} {m m' : Entries α} {n : Nat} {name : Name} {child : α}

/-- Edits behind a prefix of the sorted names leave the prefix in place. -/
theorem keys_take (hn : n ≤ m.keys.length) (hkept : ∀ k ∈ m.keys.take n, k ∈ m')
    (hbehind : ∀ k ∈ m', k ∉ m.keys.take n → ∀ p ∈ m.keys.take n, compare p k = .lt) :
    m'.keys.take n = m.keys.take n ∧ n ≤ m'.keys.length := by
  generalize hP : m.keys.take n = P at *
  have hlen : P.length = n := by rw [← hP, List.length_take]; omega
  have hsorted : P.Pairwise fun a b => compare a b = .lt := hP ▸ Std.ExtTreeMap.ordered_keys.sublist (List.take_sublist n _)
  have hnodup : P.Nodup := hP ▸ Std.ExtTreeMap.nodup_keys.sublist (List.take_sublist n _)
  have hall : (P ++ m'.keys.filter (· ∉ P)).Pairwise fun a b => compare a b = .lt := by
    refine List.pairwise_append.2 ⟨hsorted, Std.ExtTreeMap.ordered_keys.filter _, fun p hp k hk => ?_⟩
    obtain ⟨hk, hnot⟩ := List.mem_filter.1 hk
    exact hbehind k (Std.ExtTreeMap.mem_keys.1 hk) (by simpa using hnot) p hp
  have hperm : (P ++ m'.keys.filter (· ∉ P)).Perm m'.keys := by
    refine (List.perm_ext_iff_of_nodup ?_ Std.ExtTreeMap.nodup_keys).2 fun k => ?_
    · refine List.nodup_append'.2 ⟨hnodup, Std.ExtTreeMap.nodup_keys.filter _, fun k hk hk' => ?_⟩
      simp [hk] at hk'
    · rw [List.mem_append, List.mem_filter, Std.ExtTreeMap.mem_keys]
      have := hkept k
      by_cases hk : k ∈ P <;> simp_all
  have heq : P ++ m'.keys.filter (· ∉ P) = m'.keys := by
    refine hperm.eq_of_pairwise (fun a b _ _ hab hba => ?_) hall Std.ExtTreeMap.ordered_keys
    rw [@Std.OrientedCmp.eq_swap _ compare _ a b, hba] at hab
    cases hab
  rw [← heq, List.take_left' hlen, List.length_append, hlen]
  exact ⟨rfl, Nat.le_add_right _ _⟩

theorem keys_behind {k p : Name} (hk : k ∈ m) (hnot : k ∉ m.keys.take n) (hp : p ∈ m.keys.take n) : compare p k = .lt := by
  have hsorted : (m.keys.take n ++ m.keys.drop n).Pairwise fun a b => compare a b = .lt := by
    rw [List.take_append_drop]
    exact Std.ExtTreeMap.ordered_keys
  have hmem : k ∈ m.keys.take n ++ m.keys.drop n := by
    rw [List.take_append_drop]
    exact Std.ExtTreeMap.mem_keys.2 hk
  exact (List.pairwise_append.1 hsorted).2.2 p hp k ((List.mem_append.1 hmem).resolve_left hnot)

theorem keys_insert (hn : n ≤ m.keys.length) (hname : ∀ p ∈ m.keys.take n, compare p name = .lt) :
    (m.insert name child).keys.take n = m.keys.take n ∧ n ≤ (m.insert name child).keys.length := by
  refine keys_take hn (fun k hk => ?_) fun k hk hnot p hp => ?_
  · exact Std.ExtTreeMap.mem_insert.2 (.inr (Std.ExtTreeMap.mem_keys.1 (List.mem_of_mem_take hk)))
  · obtain heq | hk := Std.ExtTreeMap.mem_insert.1 hk
    · rw [← Std.LawfulEqCmp.eq_of_compare heq]
      exact hname p hp
    · exact keys_behind hk hnot hp

theorem keys_erase (hn : n ≤ m.keys.length) (hname : ∀ p ∈ m.keys.take n, compare p name = .lt) :
    (m.erase name).keys.take n = m.keys.take n ∧ n ≤ (m.erase name).keys.length := by
  refine keys_take hn (fun k hk => ?_) fun k hk hnot p hp => ?_
  · refine Std.ExtTreeMap.mem_erase.2 ⟨fun heq => ?_, Std.ExtTreeMap.mem_keys.1 (List.mem_of_mem_take hk)⟩
    have hlt := hname k hk
    rw [Std.LawfulEqCmp.eq_of_compare heq, @Std.ReflCmp.compare_self _ compare _ k] at hlt
    cases hlt
  · exact keys_behind (Std.ExtTreeMap.mem_erase.1 hk).2 hnot hp

end keys

/-! ### The loop -/

/-- The loop returns a front part of the table; with an empty buffer it ends early only with an error. -/
theorem readdirLoop_spec (length : Nat) : ∀ (table : List (Nat × FileType × Name)) (index used : Nat),
    (readdirLoop length table index used).2.map DirEntry.name =
      (table.map (·.2.2)).take (readdirLoop length table index used).2.length ∧
    (readdirLoop length table index used).2.length ≤ table.length ∧
    (readdirLoop length table index 0 = (.ok (), []) → table = []) := by
  intro table
  induction table with
  | nil => simp [readdirLoop]
  | cons row rest ih =>
    intro index used
    obtain ⟨ino, fileType, name⟩ := row
    refine ⟨?_, ?_, ?_⟩
    · rw [readdirLoop]
      split
      · rfl
      · rfl
      · simpa using (ih (index + 1) (used + recordLen name)).1
    · rw [readdirLoop]
      split
      · exact Nat.zero_le _
      · exact Nat.zero_le _
      · simpa using (ih (index + 1) (used + recordLen name)).2.1
    · intro h
      rw [readdirLoop] at h
      split at h
      case h_1 => cases h
      case h_2 hemit =>
        unfold emitDirent64 at hemit
        repeat' split at hemit
        all_goals contradiction
      case h_3 => cases congrArg Prod.snd h

/-- A name that a record can hold. -/
def PlainName (name : Name) : Prop := 0 ∉ name ∧ recordLen name < 65536

instance (name : Name) : Decidable (PlainName name) := inferInstanceAs (Decidable (_ ∧ _))

/-- Once a record was written, the loop ends without an error. -/
theorem readdirLoop_ok {length : Nat} : ∀ {table : List (Nat × FileType × Name)} {index used : Nat},
    (∀ row ∈ table, PlainName row.2.2) → used ≠ 0 → (readdirLoop length table index used).1 = .ok () := by
  intro table
  induction table with
  | nil => exact fun _ _ => rfl
  | cons row rest ih =>
    obtain ⟨ino, fileType, name⟩ := row
    intro index used hplain hused
    obtain ⟨⟨hzero, hlen⟩, hrest⟩ := List.forall_mem_cons.1 hplain
    rw [readdirLoop, emitDirent64, if_neg hzero, if_neg (Nat.not_le.2 hlen), if_neg hused]
    by_cases hfull : length - used < recordLen name
    · rw [if_pos hfull]
    · rw [if_neg hfull]
      exact ih hrest (by omega)

/-- The loop fails only at its first record. -/
theorem readdirLoop_plain (length index : Nat) {table : List (Nat × FileType × Name)}
    (hplain : ∀ row ∈ table, PlainName row.2.2) :
    (readdirLoop length table index 0).1 = .ok () ∨ (readdirLoop length table index 0).2 = [] := by
  cases table with
  | nil => exact .inl rfl
  | cons row rest =>
    obtain ⟨ino, fileType, name⟩ := row
    rw [readdirLoop]
    split
    · exact .inr rfl
    · exact .inl rfl
    · refine .inl (readdirLoop_ok (List.forall_mem_cons.1 hplain).2 ?_)
      rw [recordLen]
      omega

/-! ### One call -/

/-- The entries of the volume below have been loaded, where there is one. -/
def Directory.Settled {α : Type} (d : Directory α) : Prop := ∀ o, d.overlay = some o → o.populated = true

section calls
variable {α η : Type} {l : Locked α η} {name : Name} {disk : Nat → Ext4.Ext4FileSystem} {keep : Node → η → α × η}
  {f : DirectoryFile α η}

theorem Directory.Settled.setOverlay {d : Directory α} {g : Overlay → Overlay} (h : d.Settled)
    (hg : ∀ o, o.populated = true → (g o).populated = true) : (d.setOverlay g).Settled := by
  intro o ho
  obtain ⟨o', ho', rfl⟩ := Option.map_eq_some_iff.1 ho
  exact hg o' (h o' ho')

theorem after_of_wp {β : Type} {x : DirectoryM α η β} {P : Locked α η → Prop}
    (h : wp x l (fun _ l' => P l') (fun _ l' => P l')) : P (x.after l) := by
  rw [wp_iff] at h
  unfold DirectoryM.after
  split
  · exact h.1 _ _ ‹_›
  · exact h.2 _ _ ‹_›

theorem onMemory_settled {β : Type} {x : MemoryM β} (h : l.directory.Settled) :
    wp (DirectoryM.onMemory x) l (fun _ l' => l'.directory.Settled) (fun _ l' => l'.directory.Settled) :=
  wp_zoom.2 (wp_true.mono (fun _ _ _ => h) fun _ _ _ => h)

theorem insertChild_overlay {child : Nat → η → α × η} : wp (DirectoryM.insertChild name child) l
    (fun _ l' => l'.directory.overlay = (l.directory.reveal name).overlay)
    (fun _ l' => l'.directory.overlay = (l.directory.reveal name).overlay) := by
  unfold DirectoryM.insertChild
  rw [wp_bind, wp_change, wp_bind, wp_get, wp_bind, wp_ensure]
  refine ⟨fun _ => ?_, fun _ => rfl⟩
  rw [wp_bind]
  exact wp_zoom.2 (wp_true.mono (fun _ _ _ => wp_modify.2 rfl) fun _ _ _ => rfl)

theorem insertChild_settled {child : Nat → η → α × η} (h : l.directory.Settled) :
    wp (DirectoryM.insertChild name child) l (fun _ l' => l'.directory.Settled) (fun _ l' => l'.directory.Settled) := by
  have hreveal : (l.directory.reveal name).Settled := by
    unfold Directory.reveal Directory.forget
    exact (h.setOverlay (by intro o ho; exact ho)).setOverlay (by intro o ho; exact ho)
  exact insertChild_overlay.mono (fun _ _ h' o ho => hreveal o (h' ▸ ho)) fun _ _ h' o ho => hreveal o (h' ▸ ho)

theorem removeChildUnchecked_settled (h : l.directory.Settled) :
    wp (DirectoryM.removeChildUnchecked name) l (fun _ l' => l'.directory.Settled) (fun _ l' => l'.directory.Settled) := by
  have hwhiteout : wp (DirectoryM.whiteout name) l (fun _ l' => l'.directory.Settled)
    (fun _ l' => l'.directory.Settled) := by
    unfold DirectoryM.whiteout
    rw [wp_bind, wp_change, wp_bind, wp_get, wp_ite]
    have hforget : (l.directory.forget name).Settled := h.setOverlay fun _ ho => ho
    refine ⟨fun _ => ?_, fun _ => wp_pure.2 hforget⟩
    rw [wp_bind, wp_discard]
    refine (onMemory_settled hforget).mono (fun _ l' h' => wp_change.2 ?_) fun _ _ h' => h'
    change (l'.directory.hide name).Settled
    unfold Directory.hide Directory.forget
    exact (h'.setOverlay (by intro o ho; exact ho)).setOverlay (by intro o ho; exact ho)
  unfold DirectoryM.removeChildUnchecked
  rw [wp_bind]
  refine hwhiteout.mono (fun _ l' h' => ?_) fun _ _ h' => h'
  rw [wp_bind, wp_get, wp_bind, wp_okOr]
  refine ⟨fun child _ => ?_, fun _ => h'⟩
  rw [wp_bind, wp_change, wp_pure]
  exact h'

theorem populate_of_settled (h : l.directory.Settled) : DirectoryM.populate disk keep l = .ok () l := by
  unfold DirectoryM.populate
  cases ho : l.directory.overlay with
  | none => simp [bind, EStateM.bind, get, getThe, MonadStateOf.get, EStateM.get, ho, pure, EStateM.pure]
  | some o => simp [bind, EStateM.bind, get, getThe, MonadStateOf.get, EStateM.get, ho, h o ho, pure, EStateM.pure]

theorem populate_settled :
    wp (DirectoryM.populate disk keep) l (fun _ l' => l'.directory.Settled) fun _ _ => True := by
  unfold DirectoryM.populate
  rw [wp_bind, wp_get]
  cases ho : l.directory.overlay with
  | none => exact wp_pure.2 fun o h => by rw [ho] at h; cases h
  | some o =>
    rw [wp_ite]
    refine ⟨fun hp => wp_pure.2 fun o' h => ?_, fun _ => ?_⟩
    · rw [ho] at h
      cases h
      exact hp
    · split
      · exact wp_throw.2 trivial
      · simp only [wp_bind, wp_change]
        refine wp_true.mono (fun _ _ _ => ?_) fun _ _ _ => trivial
        refine wp_true.mono (fun _ _ _ => ?_) fun _ _ _ => trivial
        refine wp_true.mono (fun _ l' _ => ?_) fun _ _ _ => trivial
        intro o' ho'
        obtain ⟨_, _, rfl⟩ := Option.map_eq_some_iff.1 ho'
        rfl

/-- The names that a listing goes through. -/
def DirectoryFile.names (f : DirectoryFile α η) : List Name := [dot] :: [dot, dot] :: f.children.keys

theorem table_names (look : η → α → Nat × FileType) : (f.table look).map (·.2.2) = f.names := by
  rw [DirectoryFile.table, DirectoryFile.names, List.map_cons, List.map_cons, List.map_map,
    ← Std.ExtTreeMap.map_fst_toList_eq_keys]
  rfl

/-- What the part of a call under the lock returns is what the position passes. -/
theorem readTable_spec (look : η → α → Nat × FileType) (length : Nat) (h : f.position ≤ f.names.length) :
    ∃ entries : List DirEntry,
    (f.readTable look length).2 = { f with position := f.position + entries.length } ∧
    entries.map DirEntry.name = (f.names.drop f.position).take entries.length ∧
    f.position + entries.length ≤ f.names.length ∧
    (∀ es, (f.readTable look length).1 = .ok es → es = entries) ∧
    ((f.readTable look length).1 = .ok [] → f.names.length ≤ f.position) ∧
    ((∀ name ∈ f.names, PlainName name) → (f.readTable look length).1 = .ok entries ∨ entries = []) := by
  obtain ⟨hnames, hlen, hend⟩ := readdirLoop_spec length ((f.table look).drop f.position) f.position 0
  generalize hloop : readdirLoop length ((f.table look).drop f.position) f.position 0 = r at *
  obtain ⟨result, entries⟩ := r
  have hread : f.readTable look length = (result.map fun _ => entries,
    { f with position := f.position + entries.length }) := by
    rw [DirectoryFile.readTable, hloop]
  have htable : (f.table look).length = f.names.length := by rw [← table_names look, List.length_map]
  replace hlen : entries.length ≤ f.names.length - f.position := by rwa [List.length_drop, htable] at hlen
  refine ⟨entries, by rw [hread], ?_, by omega, ?_, ?_, ?_⟩
  · rw [hnames, List.map_drop, table_names]
  · intro es hes
    rw [hread] at hes
    cases result with
    | error => cases hes
    | ok => exact (Except.ok.inj hes).symm
  · intro hes
    rw [hread] at hes
    cases result with
    | error => cases hes
    | ok =>
      have hentries : entries = [] := Except.ok.inj hes
      have hnil := List.length_eq_zero_iff.2 (hend (by rw [hentries]))
      rw [List.length_drop, htable] at hnil
      omega
  · intro hplain
    have hrows : ∀ row ∈ (f.table look).drop f.position, PlainName row.2.2 := fun row hrow => by
      refine hplain _ ?_
      rw [← table_names look]
      exact List.mem_map_of_mem (List.mem_of_mem_drop hrow)
    have hfails := readdirLoop_plain length f.position hrows
    rw [hloop] at hfails
    refine hfails.imp (fun hok => ?_) id
    rw [hread]
    exact congrArg (Except.map fun _ => entries) hok

end calls

/-! ### Runs -/

namespace Listing

variable {α η : Type} {disk : Nat → Ext4.Ext4FileSystem} {keep : Node → η → α × η} {look : η → α → Nat × FileType}
  {s t : Listing α η}

/-- The names of entries that the position has passed. -/
def passed (s : Listing α η) : List Name := s.file.children.keys.take (s.file.position - 2)

/-- The names that the directory has once those of the volume below are loaded. -/
def loaded (disk : Nat → Ext4.Ext4FileSystem) (keep : Node → η → α × η) (s : Listing α η) : List Name :=
  ((DirectoryM.populate disk keep).after s.file.locked).directory.children.keys

/-- The table does not change in front of the position, and no record is lost: the buffer can be written, and every name
fits in a record. -/
def Orderly (disk : Nat → Ext4.Ext4FileSystem) (keep : Node → η → α × η) (s : Listing α η) : ListingCall α → Prop
  | .getdents _ writable => writable = true ∧ ∀ name ∈ s.loaded disk keep, PlainName name
  | .create name _ => ∀ p ∈ s.passed, compare p name = .lt
  | .remove name => ∀ p ∈ s.passed, compare p name = .lt

structure Inv (s : Listing α η) : Prop where
  returned : s.returned.map DirEntry.name = s.file.names.take s.file.position
  position : s.file.position ≤ s.file.names.length
  settled : s.file.position = 0 ∨ s.file.locked.directory.Settled

def Follows (s : Listing α η) (l : Locked α η) : Prop :=
  l.directory.children.keys.take (s.file.position - 2) = s.passed ∧ s.file.position - 2 ≤ l.directory.children.keys.length

theorem Follows.of_children {l : Locked α η} {m : Entries α} (h : l.directory.children = m)
    (hm : m.keys.take (s.file.position - 2) = s.passed ∧ s.file.position - 2 ≤ m.keys.length) : s.Follows l := by
  rwa [Follows, h]

theorem Inv.edit {l : Locked α η} (h : s.Inv) (hl : s.Follows l)
    (hsettled : s.file.locked.directory.Settled → l.directory.Settled) : Inv { s with file.locked := l } := by
  obtain ⟨hkeys, hlen⟩ := hl
  refine ⟨?_, ?_, h.settled.imp id hsettled⟩
  · refine h.returned.trans ?_
    change List.take s.file.position ([dot] :: [dot, dot] :: s.file.children.keys) =
      List.take s.file.position ([dot] :: [dot, dot] :: l.directory.children.keys)
    match hp : s.file.position with
    | 0 => rfl
    | 1 => rfl
    | n + 2 =>
      rw [passed, hp] at hkeys
      rw [List.take_succ_cons, List.take_succ_cons, List.take_succ_cons, List.take_succ_cons]
      exact congrArg _ (congrArg _ hkeys.symm)
  · change s.file.position ≤ l.directory.children.keys.length + 1 + 1
    omega

theorem Inv.position_sub (h : s.Inv) : s.file.position - 2 ≤ s.file.children.keys.length := by
  have := h.position
  rw [DirectoryFile.names, List.length_cons, List.length_cons] at this
  omega

/-- Loading the entries of the volume below happens before anything is returned. -/
theorem Inv.populated {l : Locked α η} (h : s.Inv) (hl : DirectoryM.populate disk keep s.file.locked = .ok () l) :
    Inv { s with file.locked := l } ∧ l.directory.Settled := by
  have hsettled : l.directory.Settled := (wp_iff.1 populate_settled).1 _ _ hl
  refine ⟨?_, hsettled⟩
  rcases h.settled with hzero | hold
  · refine ⟨?_, ?_, .inr hsettled⟩
    · have hr := h.returned
      rw [hzero] at hr
      exact hr.trans (by simp [hzero])
    · exact hzero.le.trans (Nat.zero_le _)
  · rw [populate_of_settled hold] at hl
    cases hl
    exact h

theorem Inv.getdents (h : s.Inv) {length : Nat} {writable : Bool}
    (hfine : Orderly disk keep s (.getdents length writable)) :
      Inv (s.next disk keep look (.getdents length writable)) := by
  obtain ⟨rfl, hplain⟩ := hfine
  rw [loaded, DirectoryM.after] at hplain
  unfold next DirectoryFile.sysGetdents64 DirectoryFile.readdir
  cases hl : DirectoryM.populate disk keep s.file.locked with
  | error e l =>
    -- a directory that has been read from has nothing left to load
    have hzero : s.file.position = 0 := by
      refine h.settled.resolve_right fun hs => ?_
      rw [populate_of_settled hs] at hl
      cases hl
    refine ⟨?_, hzero.le.trans (Nat.zero_le _), .inl hzero⟩
    have hr := h.returned
    rw [hzero] at hr
    exact hr.trans (by simp [hzero])
  | ok u l =>
    obtain ⟨hinv, hsettled⟩ := h.populated hl
    rw [hl] at hplain
    dsimp only at hplain ⊢
    obtain ⟨entries, hfile, hnames, hle, hes, -, hfails⟩ :=
      readTable_spec look (min length DirectoryFile.maxDirentBytes) hinv.position
    have hmoved : Inv { file := { s.file with locked := l, position := s.file.position + entries.length }
                        returned := s.returned ++ entries } := by
      refine ⟨?_, hle, .inr hsettled⟩
      rw [List.map_append, hnames, hinv.returned]
      exact List.take_add.symm
    generalize hread : DirectoryFile.readTable look { s.file with locked := l }
      (min length DirectoryFile.maxDirentBytes) = r at *
    obtain ⟨result, file⟩ := r
    cases hfile
    cases result with
    | error e =>
      -- the first record did not fit, so that nothing was passed
      have hnil : entries = [] := by
        refine (hfails ?_).resolve_left fun h => by cases h
        refine List.forall_mem_cons.2 ⟨by decide, List.forall_mem_cons.2 ⟨by decide, hplain⟩⟩
      subst hnil
      exact hinv
    | ok es =>
      cases hes es rfl
      exact hmoved

theorem Inv.next (h : s.Inv) (call : ListingCall α) (hfine : Orderly disk keep s call) :
    Inv (s.next disk keep look call) := by
  cases call with
  | getdents => exact h.getdents hfine
  | create name child =>
    have hkeys : s.Follows ((DirectoryM.insertChild name fun _ rest => (child, rest)).after s.file.locked) :=
      after_of_wp (insertChild_locked.mono
        (fun _ l hl => .of_children hl.2.1 (keys_insert h.position_sub hfine))
        fun _ l hl => .of_children hl.children ⟨rfl, h.position_sub⟩)
    exact h.edit hkeys fun hs => after_of_wp (insertChild_settled hs)
  | remove name =>
    have hkeys : s.Follows ((DirectoryM.removeChildUnchecked name).after s.file.locked) :=
      after_of_wp (removeChildUnchecked_locked.mono
        (fun _ l hl => .of_children hl.2.1 (keys_erase h.position_sub hfine))
        fun _ l hl => .of_children hl.children ⟨rfl, h.position_sub⟩)
    exact h.edit hkeys fun hs => after_of_wp (removeChildUnchecked_settled hs)

/-- In a run whose edits are behind the position and that loses no records, a listing that reports its end has returned the
directory, its parent and each entry that the directory then has (in particular each that it had all along) exactly once. -/
theorem listing_complete {s : Listing α η} (h : ((system disk keep look).restrict (Orderly disk keep)).Reachable s)
    {length : Nat} {writable : Bool} (hend : (s.file.sysGetdents64 disk keep look length writable).1 = .records []) :
    s.returned.map DirEntry.name = [dot] :: [dot, dot] :: s.file.children.keys ∧
      ∀ name ∈ s.file.children, s.file.children.keys.count name = 1 := by
  have hinv : s.Inv := by
    refine h.invariant (I := Inv) ?_ ?_
    · rintro s ⟨hzero, hnil⟩
      refine ⟨?_, hzero.le.trans (Nat.zero_le _), .inl hzero⟩
      rw [hnil, hzero]
      rfl
    · rintro s call t hs ⟨rfl, hfine⟩
      exact hs.next call hfine
  refine ⟨?_, fun name hname => ?_⟩
  · unfold DirectoryFile.sysGetdents64 DirectoryFile.readdir at hend
    cases hl : DirectoryM.populate disk keep s.file.locked with
    | error e l =>
      rw [hl] at hend
      cases hend
    | ok u l =>
      obtain ⟨hloaded, -⟩ := hinv.populated hl
      rw [hl] at hend
      dsimp only at hend
      obtain ⟨entries, -, -, -, -, hlast, -⟩ :=
        readTable_spec look (min length DirectoryFile.maxDirentBytes) hloaded.position
      have hfull := hlast (by
        generalize DirectoryFile.readTable look { s.file with locked := l }
          (min length DirectoryFile.maxDirentBytes) = r at *
        obtain ⟨result, file⟩ := r
        cases result with
        | error e => cases hend
        | ok es =>
          cases writable
          · cases hend
          · cases hend
            rfl)
      -- the position is behind the first two entries, so nothing was left to load
      have hsettled : s.file.locked.directory.Settled := hinv.settled.resolve_left fun hzero => by
        rw [DirectoryFile.names, List.length_cons] at hfull
        exact absurd hfull (by simp [hzero])
      rw [populate_of_settled hsettled] at hl
      cases hl
      rw [hinv.returned, List.take_of_length_le hfull]
      rfl
  · exact List.count_eq_one_of_mem Std.ExtTreeMap.nodup_keys (Std.ExtTreeMap.mem_keys.2 hname)

def opened (names : List Name) : Listing Nat Unit where
  file :=
    { locked :=
        { ino := 1, directory := { children := names.foldl (fun m n => m.insert n 7) ∅, overlay := none },
          memory := [], rest := () }
      parentIno := 1
      position := 0 }
  returned := []

def noVolume (_ : Nat) : Ext4.Ext4FileSystem where
  readInode _ := .error .notFound
  readInodeBytes _ := .error .notFound
  readSymlink _ := .error .notFound

def getdents (s : Listing Nat Unit) (length : Nat) : Getdents :=
  (s.file.sysGetdents64 noVolume (fun _ u => (7, u)) (fun _ c => (c, .regular)) length true).1

def step (s : Listing Nat Unit) (call : ListingCall Nat) : Listing Nat Unit :=
  s.next noVolume (fun _ u => (7, u)) (fun _ c => (c, .regular)) call

/-- The states of the small directory's orderly runs. -/
abbrev Orderlies (s : Listing Nat Unit) : Prop :=
  ((system noVolume (fun _ u => (7, u)) fun _ c => (c, .regular)).restrict (Orderly noVolume fun _ u => (7, u))).Reachable s

theorem Orderlies.call {s : Listing Nat Unit} {c : ListingCall Nat} (h : Orderlies s)
    (hc : Orderly noVolume (fun _ u => (7, u)) s c) : Orderlies (step s c) :=
  .step h ⟨rfl, hc⟩

/-- A file is removed and another one is created behind the position between two calls with a buffer for three records. -/
theorem listing_complete_edited :
    let s₁ := step (opened [[97], [98], [99]]) (.getdents 72 true)
    let s₂ := step (step s₁ (.remove [99])) (.create [100] 7)
    let s₃ := step s₂ (.getdents 72 true)
    s₃.getdents 72 = .records [] ∧ s₃.returned.map DirEntry.name = [[dot], [dot, dot], [97], [98], [100]] := by
  intro s₁ s₂ s₃
  have hend : s₃.getdents 72 = .records [] := by decide +kernel
  have h₀ : Orderlies (opened [[97], [98], [99]]) := .init ⟨rfl, rfl⟩
  have h₁ : Orderlies s₁ := h₀.call (show _ ∧ _ by decide +kernel)
  have h₂ : Orderlies s₂ := (h₁.call (c := .remove [99]) (show ∀ p ∈ passed _, _ by decide +kernel)).call
    (show ∀ p ∈ passed _, _ by decide +kernel)
  have h₃ : Orderlies s₃ := h₂.call (show _ ∧ _ by decide +kernel)
  exact ⟨hend, (listing_complete h₃ hend).1.trans (by decide +kernel)⟩

/-- Three files and a buffer for three records; the first file is removed once it was returned. The second file is there all
the time and is not returned, though the listing comes to its end. -/
theorem listing_skips :
    let s₁ := step (opened [[97], [98], [99]]) (.getdents 72 true)
    let s₂ := step s₁ (.remove [97])
    let s₃ := step s₂ (.getdents 72 true)
    [98] ∈ s₁.file.children ∧ [98] ∈ s₂.file.children ∧ [98] ∈ s₃.file.children ∧
      s₃.returned.map DirEntry.name = [[dot], [dot, dot], [97], [99]] ∧
      s₃.getdents 72 = .records [] := by
  decide +kernel

end Listing

end Vfs

end SudoOS
