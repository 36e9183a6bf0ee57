import SudoOS.Kernel.Mount
import SudoOS.Theorems.Readdir

/-! When a failed mount leaves the directory and the table of mounts as they were. -/

namespace SudoOS

namespace Vfs

open Ext4 Program

/-! ### What a directory shows -/

/-- The volume below a directory, and the inode of the directory there. -/
def Directory.volume {α : Type} (d : Directory α) : Option (Nat × Nat) := d.overlay.map fun o => (o.fs, o.ino)

/-- The names that are found in a directory: its entries, and those of the volume below that are neither loaded nor
hidden. -/
def Directory.Shows {α : Type} (disk : Nat → Ext4FileSystem) (d : Directory α) (name : Name) : Prop :=
  name ∈ d.children ∨ ∃ o entries, d.overlay = some o ∧ o.populated = false ∧
    (disk o.fs).listDirectoryInfo o.ino = .ok entries ∧ name ∈ entries.map Prod.fst ∧ name ∉ o.whiteouts

section directory
variable {α η : Type} {l : Locked α η} {name : Name} {disk : Nat → Ext4FileSystem} {keep : Node → η → α × η}

theorem mem_put {d : Directory α} {n : Name} {a : α} : name ∈ (d.put n a).children ↔ name = n ∨ name ∈ d.children := by
  rw [Directory.put, Std.ExtTreeMap.mem_insert, Std.LawfulEqCmp.compare_eq_iff_eq, eq_comm]

/-- The entries that are left to load: with those of the directory they are all it shows. -/
structure Loading (o : Overlay) (names : List Name) (l : Locked α η) (rest : List (Name × Node)) (l' : Locked α η) :
    Prop where
  overlay : l'.directory.overlay = some o
  names : ∀ name, name ∈ l'.directory.children ∨ name ∈ rest.map Prod.fst ∧ name ∉ o.whiteouts ↔
    name ∈ l.directory.children ∨ name ∈ names ∧ name ∉ o.whiteouts

theorem Loading.loadEntry {o : Overlay} {names : List Name} {entry : Name × Node} {rest : List (Name × Node)}
    {l' : Locked α η} (h : Loading o names l (entry :: rest) l') :
    wp (DirectoryM.loadEntry keep entry) l' (fun _ l'' => Loading o names l rest l'') fun _ _ => False := by
  have hhides : l'.directory.hides entry.1 = true ↔ entry.1 ∈ o.whiteouts := by
    rw [Directory.hides, h.overlay]
    exact Std.ExtTreeSet.contains_iff_mem
  unfold DirectoryM.loadEntry DirectoryM.addChild
  rw [wp_bind, wp_get, wp_ite]
  refine ⟨fun hskip => wp_pure.2 ⟨h.overlay, fun name => ?_⟩, fun hload => ?_⟩
  · rw [← h.names name, List.map_cons, List.mem_cons]
    refine or_congr_right' fun hnot => and_congr_left fun hshown => (or_iff_right ?_).symm
    rintro rfl
    exact hskip.elim (fun hh => hshown (hhides.1 hh)) hnot
  · rw [not_or, hhides] at hload
    simp only [wp_discard, wp_bind, wp_get, wp_set, wp_pure]
    refine ⟨h.overlay, fun name => ?_⟩
    rw [← h.names name, List.map_cons, List.mem_cons, Locked.place, mem_put]
    constructor
    · rintro ((rfl | hin) | ⟨hrest, hshown⟩)
      · exact .inr ⟨.inl rfl, hload.1⟩
      · exact .inl hin
      · exact .inr ⟨.inr hrest, hshown⟩
    · rintro (hin | ⟨rfl | hrest, hshown⟩)
      · exact .inl (.inr hin)
      · exact .inl (.inl rfl)
      · exact .inr ⟨hrest, hshown⟩

end directory

/-! ### Memory -/

/-- The next requests for memory are granted. -/
def Granted (n : Nat) (memory : Memory) : Prop := false ∉ memory.take n

theorem granted_add {n k : Nat} {memory : Memory} : Granted (n + k) memory ↔ Granted n memory ∧
    Granted k (memory.drop n) := by
  rw [Granted, List.take_add, List.mem_append, not_or]
  rfl

theorem wp_reserve {memory : Memory} : wp reserve memory (fun _ m => Granted 1 memory ∧ m = memory.drop 1)
    fun _ _ => ¬Granted 1 memory := by
  unfold reserve Granted
  rw [wp_bind, wp_get]
  rcases memory with _ | ⟨_ | _, r⟩ <;> simp

theorem wp_reserves {n : Nat} {memory : Memory} : wp ((List.replicate n ()).forM fun _ => reserve) memory
    (fun _ m => Granted n memory ∧ m = memory.drop n) fun _ _ => ¬Granted n memory := by
  induction n generalizing memory with
  | zero => exact wp_pure.2 ⟨by simp [Granted], rfl⟩
  | succ n ih =>
    rw [List.replicate_succ, List.forM_eq_forM, List.forM_cons, wp_bind, Nat.add_comm, granted_add]
    refine wp_reserve.mono ?_ fun _ _ h hboth => h hboth.1
    rintro _ _ ⟨hfirst, rfl⟩
    refine ih.mono ?_ fun _ _ h hboth => h hboth.2
    rintro _ _ ⟨hrest, rfl⟩
    exact ⟨⟨hfirst, hrest⟩, by rw [List.drop_drop]⟩

/-! ### Entries of `proc` and `sysfs` -/

section fill
variable {α η : Type} {l : Locked α η} {make : Name → Nat → η → α × η}

/-- The requests for memory that it takes to make entries. -/
def requests (entries : List (Nat × Name)) : Nat := (entries.map fun entry => entry.1 + 1).sum

end fill

/-! ### Mounting -/

section mount
variable {α η : Type} {disk : Nat → Ext4FileSystem} {keep : Node → η → α × η} {make : Name → Nat → η → α × η}
    {i : MountInput}
  {s t : MountState α η} {source : Option Path} {target filesystemType : Path} {flags : Nat}

/-- The table is as before, and so is the directory: it shows the same names of the same volume, and its entries are those
it had, but for entries of the volume below that were loaded. -/
structure Unchanged (disk : Nat → Ext4FileSystem) (keep : Node → η → α × η) (s t : MountState α η) : Prop where
  mounts : t.mounts = s.mounts
  readOnly : t.readOnly = s.readOnly
  volume : t.target.directory.volume = s.target.directory.volume
  shows : ∀ name, t.target.directory.Shows disk name ↔ s.target.directory.Shows disk name
  children : t.target.directory.children = s.target.directory.children ∨
    ∃ l, DirectoryM.populate disk keep s.target = .ok () l ∧ t.target.directory.children = l.directory.children

theorem Unchanged.of_directory (hmounts : t.mounts = s.mounts) (hreadOnly : t.readOnly = s.readOnly)
    (h : t.target.directory = s.target.directory) : Unchanged disk keep s t :=
  ⟨hmounts, hreadOnly, by rw [h], fun _ => by rw [h], .inl (by rw [h])⟩

theorem Unchanged.refl (s : MountState α η) : Unchanged disk keep s s := .of_directory rfl rfl rfl

theorem Unchanged.trans_directory {u : MountState α η} (h : Unchanged disk keep s t) (hmounts : u.mounts = t.mounts)
    (hreadOnly : u.readOnly = t.readOnly) (hu : u.target.directory = t.target.directory) : Unchanged disk keep s u :=
  ⟨hmounts.trans h.mounts, hreadOnly.trans h.readOnly, by
    rw [hu, h.volume], fun name => by rw [hu, h.shows], by rw [hu]; exact h.children⟩

/-- No mount has this target. -/
def Free (target : Path) (s : MountState α η) : Prop := ∀ entry ∈ s.mounts, entry.target ≠ target

theorem insertMount_spec {source : Path} {fsType : MountFsType} : wp (insertMount source target fsType flags) s
    (fun _ t => Free target s ∧ t.mounts = s.mounts ++ [⟨target, source, fsType, flags⟩])
    (fun _ t => ¬(Free target s ∧ Granted 3 s.target.memory) ∧ t.mounts = s.mounts ∧ t.readOnly = s.readOnly ∧
      t.target.directory = s.target.directory) := by
  have hthrice : (do reserve; reserve; reserve : MemoryM Unit) = (List.replicate 3 ()).forM fun _ => reserve := by
    simp only [List.replicate_succ, List.replicate_zero, List.forM_eq_forM, List.forM_cons, List.forM_nil, bind_pure_unit]
  unfold insertMount ensureMountTargetFree inTarget DirectoryM.onMemory
  rw [wp_bind, wp_bind, wp_get, wp_ensure]
  refine ⟨fun hfree => ?_, fun h => ⟨fun hboth => h hboth.1, rfl, rfl, rfl⟩⟩
  rw [wp_bind, wp_zoom, wp_zoom, hthrice]
  exact wp_reserves.mono (fun _ _ _ => wp_modify.2 ⟨hfree, rfl⟩) fun _ _ h => ⟨fun hboth => h hboth.2, rfl, rfl, rfl⟩

/-- The state once the target was looked at: its entries are loaded. -/
structure Checked (disk : Nat → Ext4FileSystem) (keep : Node → η → α × η) (target : Path) (s t : MountState α η) :
    Prop where
  unchanged : Unchanged disk keep s t
  free : Free target t
  settled : t.target.directory.Settled
  loaded : DirectoryM.populate disk keep s.target = .ok () t.target

/-- The block device that a source names. -/
def sourceDevice (i : MountInput) (source : Option Path) : Option Nat :=
  source.bind fun source => (normalizeBlockSource source).toOption.bind i.openDevice

/-- No step fails after the first change: a volume that takes the place of entries can be opened, and once the directory is
changed there is memory for the rest of the mount. -/
def Safe (disk : Nat → Ext4FileSystem) (i : MountInput) (source : Option Path) (l : Locked α η) : MountFsType → Prop
  | .ext4 => ∀ device, sourceDevice i source = some device → i.verifyExt4Superblock device = .ok () →
    (l.directory.children = ∅ ∨ ∃ ino, snapshotRoot disk i device = .ok ino) ∧
      ((∃ ino, snapshotRoot disk i device = .ok ino) → Granted 3 l.memory)
  | .vfat => l.directory.children = ∅ ∨ Granted 3 l.memory
  | .proc => Granted 1 l.memory → Granted (5 + 3) l.memory
  | .sysfs => Granted 3 l.memory → Granted (8 + 3) l.memory
  | .tmpfs | .devtmpfs => True

theorem Checked.insertMount {source : Path} {fsType : MountFsType} (h : Checked disk keep target s t) :
    wp (insertMount source target fsType flags) t (fun _ _ => True) fun _ u => Unchanged disk keep s u :=
  insertMount_spec.mono (fun _ _ _ => trivial) fun _ _ hu => h.unchanged.trans_directory hu.2.1 hu.2.2.1 hu.2.2.2

/-- What the checks have made sure of when they return a plan for a file system of type `fsType`. -/
inductive Planned (disk : Nat → Ext4FileSystem) (keep : Node → η → α × η) (i : MountInput) (source : Option Path)
    (target : Path) (s t : MountState α η) : MountFsType → MountPlan → Prop
  | ext4 {path : Path} {device : Nat} {empty : Bool} : Checked disk keep target s t →
    (empty = true ↔ t.target.directory.children = ∅) → sourceDevice i source = some device →
    i.verifyExt4Superblock device = .ok () → Planned disk keep i source target s t .ext4 (.ext4 path device empty)
  | vfat {path : Path} {empty : Bool} : Checked disk keep target s t → (empty = true ↔ t.target.directory.children = ∅) →
    Planned disk keep i source target s t .vfat (.vfat path empty)
  | filled {path : Path} {fsType : MountFsType} {first : Nat × Name} {rest : List (Nat × Name)} :
    Checked disk keep target s t → t.target.directory.children = ∅ → (first.2 :: rest.map Prod.snd).Nodup →
    (Safe disk i source t.target fsType → Granted (first.1 + 1) t.target.memory →
      Granted (first.1 + 1 + requests rest + 3) t.target.memory) →
    Planned disk keep i source target s t fsType (.filled path fsType first rest)
  | plain {path : Path} {fsType : MountFsType} : t = s → Planned disk keep i source target s t fsType (.plain path fsType)

theorem Planned.mounts {fsType : MountFsType} {plan : MountPlan} (h : Planned disk keep i source target s t fsType plan) :
    t.mounts = s.mounts := by
  cases h with
  | ext4 h | vfat h | filled h => exact h.unchanged.mounts
  | plain h => rw [h]

end mount

end Vfs

end SudoOS
