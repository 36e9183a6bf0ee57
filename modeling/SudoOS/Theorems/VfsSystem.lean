import SudoOS.Theorems.VfsCalls

/-!
The VFS as a system of calls. What a call can do to the namespace is said once, by `Stepped`, and every invariant of runs is
proved by cases on it.
-/

namespace SudoOS

namespace Vfs

open Ext4 Program

variable {disk : Nat → Ext4FileSystem} {s t : Heap}

/-! ### Calls -/

inductive Stepped (disk : Nat → Ext4FileSystem) (s : Heap) : Op → Names → Prop
  | fizzled {op : Op} {t : Names} (h : Names.Fizzled disk s.names t) : Stepped disk s op t
  | created {op : Op} {t : Names} (h : Names.Created disk s.names t) : Stepped disk s op t
  | linked {oldPath newPath : Path} {followSource : Bool} {c : Nat} {m : Heap} {u t : Names}
      (hlookup : lookupFollow disk followSource (maxSymlinkFollows + 1) oldPath s = .ok c m) (hfound : Found disk s c m)
      (hlt : c < m.names.faces.length) (hloads : Names.Loads disk m.names u) (h : Names.Linked u c t) :
        Stepped disk s (.link oldPath newPath followSource) t
  | unlinked {op : Op} {u t : Names} (hloads : Names.Loads disk s.names u) (h : Names.Unlinked u t) : Stepped disk s op t
  | renamed {oldPath newPath : Path} {t : Names} {move : Move} {m m' : Heap} {target : Option Nat} {u : Names}
      (h : Renaming disk s oldPath newPath t move m target m' u) : Stepped disk s (.rename oldPath newPath) t
  | mounted {fs : Nat} {path : Path} {id : Nat} {m : Heap} (hlookup : lookup disk path s = .ok id m)
    (hfound : Found disk s id m)
      (hdir : m.names.IsDir id) : Stepped disk s (.mount fs path) (m.names.setChildren id ∅)

theorem Names.Loads.stepped {t : Names} (h : Names.Loads disk s.names t) {op : Op} : Stepped disk s op t :=
  .fizzled h.fizzled

theorem Names.Opened.stepped {t : Names} (h : Names.Opened disk s.names t) {op : Op} : Stepped disk s op t := by
  rcases h with h | h
  · exact .fizzled h
  · exact .created h

theorem mountExt4Overlay_spec {fs : Nat} {path : Path} (hs : s.names.Sound) :
    wp (mountExt4Overlay disk fs path) s
      (fun _ t => ∃ id m, lookup disk path s = .ok id m ∧ Found disk s id m ∧ m.names.IsDir id ∧
        t.names = m.names.setChildren id ∅)
      (fun _ t => Names.Loads disk s.names t.names) := by
  have hlookup : wp (lookup disk path) s (Found disk s) _ := lookupFollow_spec
  unfold mountExt4Overlay
  rw [wp_bind, wp_iff]
  refine ⟨fun id m hm => ?_, fun e m hm => hlookup.error hm⟩
  have hfound := hlookup.ok hm
  rw [wp_bind]
  refine (nodeAt_spec fun _ => hfound.loads).mono (fun node m' ⟨hm', hnode⟩ => ?_) fun _ _ h => h
  subst hm'
  rw [wp_bind, wp_ensure]
  refine ⟨fun hdir => ?_, fun _ => hfound.loads⟩
  rw [fileType_iff (hfound.loads.sound hs) hnode] at hdir
  split
  · exact wp_throw.2 hfound.loads
  · rename_i root _
    rw [wp_bind, wp_ensure]
    refine ⟨fun _ => ?_, fun _ => hfound.loads⟩
    refine wp_modify.2 ⟨id, m', hm, hfound, hdir, ?_⟩
    exact names_modifyNode (fun face => { face with children := some ∅ }) fun _ => rfl

theorem readdir_spec {path : Path} :
    wp (Op.run disk (.readdir path)) s (fun _ t => Names.Loads disk s.names t.names)
      (fun _ t => Names.Loads disk s.names t.names) := by
  have hlookup : wp (lookup disk path) s (Found disk s) _ := lookupFollow_spec
  rw [Op.run, wp_bind]
  refine hlookup.mono (fun id t ht => ?_) fun _ _ h => h
  exact (populateExt4Directory_spec ht.below).mono (fun _ u hu => ht.loads.trans hu) fun _ u hu => ht.loads.trans hu

theorem Op.run_spec (hs : s.names.Sound) {op : Op} :
    wp (op.run disk) s (fun _ t => Stepped disk s op t.names) (fun _ t => Stepped disk s op t.names) := by
  cases op with
  | mkdir path mode => exact mkdir_spec.mono (fun _ _ h => .created h) fun _ _ h => .fizzled h
  | openFile path flags =>
    rw [Op.run, wp_discard]
    exact openNode_spec.mono (fun _ _ h => h.stepped) fun _ _ h => h.stepped
  | symlink target linkPath => exact symlink_spec.mono (fun _ _ h => .created h) fun _ _ h => .fizzled h
  | link oldPath newPath followSource =>
    refine (link_spec hs).mono (fun _ t ht => ?_) fun _ _ h => h.stepped
    obtain ⟨c, m, u, hlookup, hfound, hlt, hloads, hlinked⟩ := ht
    exact .linked hlookup hfound hlt hloads hlinked
  | unlink path removeDir =>
    refine (unlink_spec hs).mono (fun _ t ht => ?_) fun _ _ h => h.stepped
    obtain ⟨u, hloads, hunlinked⟩ := ht
    exact .unlinked hloads hunlinked
  | rename oldPath newPath =>
    refine (rename_spec hs).mono (fun _ t ht => ?_) fun _ _ h => h.stepped
    obtain ⟨move, m, target, m', u, hrenaming⟩ := ht
    exact .renamed hrenaming
  | stat path follow =>
    rw [Op.run, wp_discard]
    exact lookupFollow_spec.mono (fun _ _ h => h.loads.stepped) fun _ _ h => h.stepped
  | readdir path => exact readdir_spec.mono (fun _ _ h => h.stepped) fun _ _ h => h.stepped
  | mount fs target =>
    refine (mountExt4Overlay_spec hs).mono (fun _ t ht => ?_) fun _ _ h => h.stepped
    obtain ⟨id, m, hlookup, hfound, hdir, ht⟩ := ht
    rw [ht]
    exact .mounted hlookup hfound hdir

theorem Op.stepped (hs : s.names.Sound) {op : Op} {memory : Memory} :
    Stepped disk { s with memory } op (op.apply disk memory s).names := by
  have hspec : wp (op.run disk) { s with memory } (fun _ t => Stepped disk { s with memory } op t.names)
      (fun _ t => Stepped disk { s with memory } op t.names) := Op.run_spec (s := { s with memory }) hs
  unfold Op.apply
  split
  · rename_i hrun
    exact hspec.ok hrun
  · rename_i hrun
    exact hspec.error hrun

/-! ### Sound namespaces -/

namespace Names

variable {s t : Names} {p q c v : Nat} {n k : Name}

theorem Sound.bump (h : s.Sound) : s.bump.Sound := ⟨h.inRange, h.coherent⟩

theorem Made.sound (h : Made s t) (hs : s.Sound) : t.Sound := by
  cases h with
  | mk hbelow hm hfree hfresh => exact hs.bump.addFresh hm hfresh

theorem face_before_relink {g : Nat → Nat} {f : Face} (hf : (s.relink c g).faces[v]? = some f) :
    ∃ f₀, s.faces[v]? = some f₀ ∧ f = if c = v then { f₀ with nlink := g f₀.nlink } else f₀ := by
  rw [Names.relink, List.getElem?_modify] at hf
  obtain ⟨f₀, hf₀, rfl⟩ := Option.map_eq_some_iff.1 hf
  refine ⟨f₀, hf₀, ?_⟩
  split <;> rfl

theorem Sound.relink (h : s.Sound) {g : Nat → Nat} : (s.relink c g).Sound where
  inRange hentry := by
    rw [entry_relink] at hentry
    rw [Names.relink, List.length_modify]
    exact h.inRange hentry
  coherent f hf := by
    obtain ⟨id, hid⟩ := List.mem_iff_getElem?.1 hf
    obtain ⟨f₀, hf₀, rfl⟩ := face_before_relink hid
    have hcoherent := h.coherent f₀ (List.mem_iff_getElem?.2 ⟨id, hf₀⟩)
    split
    · exact hcoherent
    · exact hcoherent

theorem Linked.sound (h : Linked s c t) (hs : s.Sound) : t.Sound := by
  cases h with
  | mk hbelow hm hfree hlt hfile => exact (hs.insert hm hlt).relink

theorem Unlinked.sound (h : Unlinked s t) (hs : s.Sound) : t.Sound := by
  cases h with
  | mk hm hc hleaf => exact (hs.erase hm).relink

theorem Renamed.isDir_iff (h : Renamed s p n q k c t) : t.IsDir v ↔ s.IsDir v := by
  unfold IsDir children?
  by_cases hv : v < s.faces.length
  · obtain ⟨f', hf', hsame⟩ := h.face (List.getElem?_eq_getElem hv)
    rw [hf', List.getElem?_eq_getElem hv, Option.bind_some, Option.bind_some, hsame.isSome]
  · rw [List.getElem?_eq_none (Nat.le_of_not_lt hv), List.getElem?_eq_none (h.length ▸ Nat.le_of_not_lt hv)]

theorem Renamed.sound (h : Renamed s p n q k c t) (hs : s.Sound) : t.Sound where
  inRange hentry := by
    rw [h.entry] at hentry
    rw [h.length]
    rcases hentry with ⟨⟨hentry, -⟩, -⟩ | ⟨-, -, rfl⟩
    · exact hs.inRange hentry
    · exact hs.inRange h.source
  coherent f' hf' := by
    obtain ⟨id, hid⟩ := List.mem_iff_getElem?.1 hf'
    obtain ⟨f, hf, hsame⟩ := face_before h.length h.face hid
    exact hsame.coherent (hs.coherent f (List.mem_iff_getElem?.2 ⟨id, hf⟩))

theorem Fizzled.sound (h : Fizzled disk s t) (hs : s.Sound) : t.Sound := by
  obtain ⟨u, hloads, rfl | rfl⟩ := h
  · exact hloads.sound hs
  · exact (hloads.sound hs).bump

end Names

theorem Stepped.sound {op : Op} {t : Names} (h : Stepped disk s op t) (hs : s.names.Sound) : t.Sound := by
  cases h with
  | fizzled h => exact h.sound hs
  | created h =>
    obtain ⟨u, hloads, hmade⟩ := h
    exact hmade.sound (hloads.sound hs)
  | linked _ hfound _ hloads h => exact h.sound (hloads.sound (hfound.loads.sound hs))
  | unlinked hloads h => exact h.sound (hloads.sound hs)
  | renamed h =>
    have hu := (h.loads.trans h.loads').sound (h.found.loads.sound hs)
    rcases h.outcome with ⟨-, -, rfl⟩ | hrenamed
    · exact hu
    · exact hrenamed.sound hu
  | mounted _ hfound hdir =>
    obtain ⟨m, hm⟩ := Names.isDir_iff.1 hdir
    refine (hfound.loads.sound hs).setChildren hm fun {n c} hc => ?_
    rw [Std.ExtTreeMap.getElem?_empty] at hc
    cases hc

theorem not_entry_emptyRoot {p : Nat} {n : Name} {c : Nat} : ¬ emptyRoot.names.Entry p n c := by
  rintro ⟨m, hm, hc⟩
  have hempty : m = ∅ := by
    cases p with
    | zero => exact (Option.some.inj hm).symm
    | succ p => cases hm
  rw [hempty, Std.ExtTreeMap.getElem?_empty] at hc
  cases hc

theorem sound_emptyRoot : emptyRoot.names.Sound where
  inRange h := absurd h not_entry_emptyRoot
  coherent f hf := by
    cases List.mem_singleton.1 hf
    exact ⟨fun _ => rfl, fun _ => rfl⟩

/-! ### Boot -/

def Names.Booted : Names → Prop := Relation.ReflTransGen Names.Made emptyRoot.names

theorem Names.Booted.invariant {I : Names → Prop} {t : Names} (h : Names.Booted t) (hroot : I emptyRoot.names)
    (hmade : ∀ s t, I s → Names.Made s t → I t) : I t := by
  induction h with
  | refl => exact hroot
  | tail _ hstep ih => exact hmade _ _ ih hstep

theorem bootNode_spec {p mode : Nat} {name : Name} {state : NodeState} (hs : Names.Booted s.names)
    (hbelow : s.names.Below rootId p) (hleaf : state.children = none ∨ state.children = some ∅)
    (hmode : FileType.ofMode mode = .directory ↔ state.children.isSome) :
    wp (newNode mode false state >>= fun node => insertChild p name (fresh node)) s
      (fun _ t => Names.Booted t.names ∧ Names.Made s.names t.names) (fun _ _ => True) :=
  (create_spec hbelow hleaf hmode).mono (fun _ _ ht => ⟨hs.tail ht, ht⟩) fun _ _ _ => trivial

theorem Names.Made.below {s t : Names} (h : Names.Made s t) {v w : Nat} (hbelow : s.Below v w) : t.Below v w := by
  cases h with
  | mk _ hm hfree hfresh =>
    refine NamedTree.Below.mono hbelow fun hentry => ?_
    rw [Names.entry_addFresh (s := s.bump) hm hfree hfresh.leaf]
    exact .inl hentry

def Booting (dev : Nat) (s : Heap) : Prop := Names.Booted s.names ∧ s.names.Below rootId dev

theorem installDevices_spec {dev : Nat} {blockDevices : List Name} (hs : Booting dev s) :
    wp (installDevices dev blockDevices) s (fun _ t => Names.Booted t.names) (fun _ _ => True) := by
  have hstep : ∀ {mode : Nat} {name : Name} {state : NodeState} {t : Heap}, Booting dev t →
      (state.children = none ∨ state.children = some ∅) → (FileType.ofMode mode = .directory ↔ state.children.isSome) →
      wp (newNode mode false state >>= fun node => insertChild dev name (fresh node)) t (fun _ u => Booting dev u)
        (fun _ _ => True) := fun ht hleaf hmode =>
    (bootNode_spec ht.1 ht.2 hleaf hmode).mono (fun _ u hu => ⟨hu.1, hu.2.below ht.2⟩) fun _ _ _ => trivial
  unfold installDevices
  rw [wp_bind]
  refine (wp_forM (fun _ => Booting dev) (fun _ _ t ht => ?_) hs).mono (fun _ t ht => ?_) fun _ _ h => h
  · exact hstep ht (.inl rfl) (by simp [FileType.ofMode, NodeState.children])
  · have hpts : wp (directory 0o040755 >>= fun pts => insertChild dev (str "pts") (fresh pts)) t (fun _ u =>
      Booting dev u) _ :=
      hstep ht (.inr rfl) (by decide)
    rw [wp_bind] at hpts
    rw [wp_bind]
    refine hpts.mono (fun pts u hu => ?_) fun _ _ h => h
    rw [wp_bind]
    refine hu.mono (fun _ v hv => ?_) fun _ _ h => h
    refine (wp_forM (fun _ => Booting dev) (fun _ _ w hw => ?_) hv).mono (fun _ _ hw => hw.1) fun _ _ h => h
    exact hstep hw (.inl rfl) (by simp [FileType.ofMode, NodeState.children])

theorem Names.Made.below_new {s t : Names} (h : Names.Made s t) : t.Below rootId s.faces.length := by
  have hmono := fun {v w : Nat} => h.below (v := v) (w := w)
  cases h with
  | @mk _ _ n _ hbelow hm hfree hfresh =>
    refine (hmono hbelow).edge (l := n) ?_
    rw [Names.entry_addFresh (s := s.bump) hm hfree hfresh.leaf]
    exact .inr ⟨rfl, rfl, rfl⟩

theorem initialTree_spec {blockDevices : List Name} :
    wp (initialTree blockDevices) emptyRoot (fun _ t => Names.Booted t.names) (fun _ _ => True) := by
  have hdev : wp (directory 0o040755 >>= fun dev => insertChild rootId (str "dev") (fresh dev)) emptyRoot
      (fun _ t => Names.Booted t.names ∧ Names.Made emptyRoot.names t.names) (fun _ _ => True) :=
    bootNode_spec .refl .refl (.inr rfl) (by decide)
  unfold initialTree
  rw [wp_bind] at hdev ⊢
  refine hdev.mono (fun dev t ht => ?_) fun _ _ h => h
  rw [wp_bind]
  exact ht.mono (fun _ u hu => installDevices_spec ⟨hu.1, hu.2.below_new⟩) fun _ _ h => h

theorem boot_spec {blockDevices : List Name} (h : boot blockDevices = some s) : Names.Booted s.names := by
  unfold boot at h
  split at h
  · rename_i hrun
    cases h
    exact initialTree_spec.ok hrun
  · cases h

/-! ### Scripts -/

def noVolumes : Nat → Ext4FileSystem := fun _ =>
  ⟨fun _ => .error .badInode, fun _ => .error .badInode, fun _ => .error .badInode⟩

def creating : OpenFlags :=
  { accessMode := 1, creat := true, excl := false, nofollow := false, directory := false, trunc := false }

def playFromBoot (disk : Nat → Ext4FileSystem) (script : List (Op × Memory)) : Option Heap :=
  (boot []).bind fun s => TransitionSystem.play (fun s a => some (a.1.apply disk a.2 s)) s script

theorem reachable_of_play {script : List (Op × Memory)} (h : playFromBoot disk script = some s) :
    (system disk).Reachable s := by
  obtain ⟨t, hboot, hplay⟩ := Option.bind_eq_some_iff.1 h
  refine TransitionSystem.Reachable.later (.init ⟨[], hboot⟩) (TransitionSystem.play_later (fun hstep => ?_) hplay)
  exact (Option.some.inj hstep).symm

def Names.child? (s : Names) (p : Nat) (n : Name) : Option Nat := (s.children? p).bind (·[n]?)

theorem Names.entry_of_child? {s : Names} {p c : Nat} {n : Name} (h : s.child? p n = some c) : s.Entry p n c :=
  let ⟨m, hm, hc⟩ := Option.bind_eq_some_iff.1 h
  ⟨m, hm, hc⟩

/-- Whatever calls are made, an entry of a directory leads to a node, and a node has entries just if its mode makes it a
directory. -/
theorem entries_lead_to_nodes (h : (system disk).Reachable s) : (∀ p n c, s.names.Entry p n c → c < s.nodes.length) ∧
    ∀ node ∈ s.nodes, node.fileType = .directory ↔ node.state.children.isSome := by
  have hsound : s.names.Sound := by
    refine h.invariant (I := fun s => s.names.Sound) ?_ fun s a t hs hstep => ?_
    · rintro s ⟨blockDevices, hboot⟩
      exact (boot_spec hboot).invariant sound_emptyRoot fun _ _ hs hmade => hmade.sound hs
    · exact Stepped.sound (s := { s with memory := a.2 }) (hstep ▸ Op.stepped hs) hs
  refine ⟨fun p n c hentry => ?_, fun node hnode => hsound.coherent _ (List.mem_map_of_mem hnode)⟩
  exact (hsound.inRange hentry).trans_eq (List.length_map _)

theorem entries_lead_to_nodes_created : ∃ s, (system noVolumes).Reachable s ∧
    s.names.Entry rootId (str "a") 10 ∧ 10 < s.nodes.length := by
  have hplay : (playFromBoot noVolumes [(.openFile (str "/a") creating, [])]).any (fun s =>
      s.names.child? rootId (str "a") == some 10) = true := by
    decide +kernel
  obtain ⟨s, hs, hchild⟩ := (Option.any_eq_true _ _).1 hplay
  have hentry := Names.entry_of_child? (beq_iff_eq.1 hchild)
  exact ⟨s, reachable_of_play hs, hentry, (entries_lead_to_nodes (reachable_of_play hs)).1 _ _ _ hentry⟩

def volumeWith (ino : UInt8) : Ext4FileSystem where
  readInode i :=
    if i = rootIno then .ok { mode := 0o040755, size := 12 }
    else if i = ino.toNat then .ok { mode := 0o100644, size := 0 }
    else .error .badInode
  readInodeBytes i := if i = rootIno then .ok [ino, 0, 0, 0, 12, 0, 1, 1, 102, 0, 0, 0] else .error .badInode
  readSymlink _ := .error .badInode

theorem directoryBytes_volumeWith {ino : UInt8} {i : Nat} {data : List UInt8}
    (h : (volumeWith ino).directoryBytes i = .ok data) : data = [ino, 0, 0, 0, 12, 0, 1, 1, 102, 0, 0, 0] := by
  obtain ⟨inode, -, h⟩ := bind_eq_ok.1 h
  split at h
  · cases h
  · unfold volumeWith at h
    dsimp only at h
    split at h
    · exact (Except.ok.inj h).symm
    · cases h

theorem lookupLoop_volumeWith {ino : UInt8} {name : Name} :
    lookupLoop name 12 [ino, 0, 0, 0, 12, 0, 1, 1, 102, 0, 0, 0] =
      if ino.toNat ≠ 0 ∧ [102] = name then .ok ino.toNat else .error .notFound := by
  simp [lookupLoop, dirRecord, bind, Except.bind]

end Vfs

end SudoOS
