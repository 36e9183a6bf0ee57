import SudoOS.Theorems.VfsNames

/-! What the operations of a directory and the path lookup do to the namespace: a lookup only loads entries from volumes. -/

namespace SudoOS

namespace Vfs

open Ext4 Program

/-! ### Volumes -/

theorem inodeInfo_spec {fs : Ext4FileSystem} {ino : Nat} {info : Ext4NodeInfo} (h : fs.inodeInfo ino = .ok info) :
    info.ino = ino ∧ (FileType.ofMode info.mode = .directory ↔ info.kind = .directory) := by
  unfold Ext4FileSystem.inodeInfo at h
  obtain ⟨inode, -, h⟩ := bind_eq_ok.1 h
  unfold FileType.ofMode
  split at h
  · rename_i hmode
    rw [pure_eq_ok] at h
    subst h
    exact ⟨rfl, by simp [hmode]⟩
  · rename_i hmode
    rw [pure_eq_ok] at h
    subst h
    exact ⟨rfl, by simp [hmode]⟩
  · rename_i hmode
    rw [pure_eq_ok] at h
    subst h
    exact ⟨rfl, by simp [hmode]⟩
  · cases h

def FromVolume (disk : Nat → Ext4FileSystem) (node : Node) : Prop :=
  ∃ fs, Names.Face.Fresh node.face ∧ node.origin = some (fs, node.ino) ∧ Names.OnVolume (disk fs) node.ino

variable {disk : Nat → Ext4FileSystem}

theorem ext4Node_spec {parentIno fs ino : Nat} {info : Ext4NodeInfo} {node : Node}
    (hinfo : (disk fs).inodeInfo ino = .ok info)
    (hdisk : Names.OnVolume (disk fs) info.ino) (h : ext4Node disk parentIno fs info = .ok node) :
      FromVolume disk node := by
  unfold ext4Node at h
  obtain ⟨state, hstate, h⟩ := bind_eq_ok.1 h
  rw [pure_eq_ok] at h
  subst h
  obtain ⟨-, hkind⟩ := inodeInfo_spec hinfo
  refine ⟨fs, ?_, rfl, hdisk⟩
  unfold ext4State at hstate
  split at hstate
  · rename_i hdir
    cases hstate
    exact ⟨.inr rfl, hkind.trans ⟨fun _ => rfl, fun _ => hdir⟩, rfl⟩
  · rename_i hregular
    cases hstate
    exact ⟨.inl rfl, hkind.trans ⟨fun hdir => (by rw [hregular] at hdir; cases hdir), fun hsome => (nomatch hsome)⟩, rfl⟩
  · rename_i hlink
    split at hstate
    · cases hstate
      exact ⟨.inl rfl, hkind.trans ⟨fun hdir => (by rw [hlink] at hdir; cases hdir), fun hsome => (nomatch hsome)⟩, rfl⟩
    · cases hstate

theorem fromVolume_lookup {parentIno fs ino : Nat} {name : Name} {info : Ext4NodeInfo} {node : Node}
    (hinfo : (disk fs).lookupChildInfo ino name = .ok info) (h : ext4Node disk parentIno fs info = .ok node) :
    FromVolume disk node := by
  obtain ⟨child, hchild, hnode⟩ := bind_eq_ok.1 hinfo
  exact ext4Node_spec hnode (.inl ⟨ino, name, info, hinfo, rfl⟩) h

theorem fromVolume_list {parentIno fs ino : Nat} {entries : List (Name × Ext4NodeInfo)} {loaded : List (Name × Node)}
    (hentries : (disk fs).listDirectoryInfo ino = .ok entries)
    (h : (entries.mapM fun entry => do
      let node ← ext4Node disk parentIno fs entry.2
      pure (entry.1, node)) = .ok loaded) : ∀ entry ∈ loaded, FromVolume disk entry.2 := by
  intro entry hentry
  obtain ⟨source, hsource, hmade⟩ := mem_mapM h hentry
  obtain ⟨node, hnode, hpair⟩ := bind_eq_ok.1 hmade
  rw [pure_eq_ok] at hpair
  subst hpair
  have hdisk : Names.OnVolume (disk fs) source.2.ino := .inr ⟨ino, entries, hentries, source, hsource, rfl⟩
  obtain ⟨data, -, hlist⟩ := bind_eq_ok.1 hentries
  obtain ⟨records, -, hlist⟩ := bind_eq_ok.1 hlist
  obtain ⟨record, -, hread⟩ := mem_mapM hlist hsource
  obtain ⟨info, hinfo, hpair⟩ := bind_eq_ok.1 hread
  rw [pure_eq_ok] at hpair
  subst hpair
  exact ext4Node_spec hinfo hdisk hnode

/-! ### Names of a heap -/

section heap
variable {s t : Heap} {id : Nat} {node : Node} {d : Directory Nat}

theorem names_modifyNode {f : Node → Node} (g : Face → Face) (hface : ∀ node, (f node).face = g node.face) :
    (s.modifyNode id f).names = { s.names with faces := s.names.faces.modify id g } := by
  unfold Heap.modifyNode Heap.names
  congr 1
  refine List.ext_getElem? fun q => ?_
  rw [List.getElem?_map, List.getElem?_modify, List.getElem?_modify, List.getElem?_map]
  cases s.nodes[q]? with
  | none => rfl
  | some node =>
    simp only [Option.map_eq_map, Option.map_some]
    split
    · rw [hface]
    · rfl

theorem names_modifyNode_of_face {f : Node → Node} (hface : ∀ node, s.nodes[id]? = some node → (f node).face = node.face) :
    (s.modifyNode id f).names = s.names := by
  unfold Heap.modifyNode Heap.names
  congr 1
  refine List.ext_getElem? fun q => ?_
  rw [List.getElem?_map, List.getElem?_modify, List.getElem?_map]
  cases hq : s.nodes[q]? with
  | none => rfl
  | some node =>
    simp only [Option.map_eq_map, Option.map_some]
    split
    · rename_i heq
      rw [hface node (heq ▸ hq)]
    · rfl

theorem names_setDirectory : (s.setDirectory id d).names = s.names.setChildren id d.children :=
  names_modifyNode (fun face => { face with children := some d.children }) fun _ => rfl

theorem names_push : (s.push node).2.names = s.names.push node.face := by
  simp only [Heap.push, Heap.names, Names.push, List.map_append, List.map_cons, List.map_nil]

theorem children?_names (hnode : s.nodes[id]? = some node) (hstate : node.state = .directory d) :
    s.names.children? id = some d.children := by
  have hchildren : node.face.children = some d.children := by rw [Node.face, hstate]; rfl
  simp only [Names.children?, Heap.names, List.getElem?_map, hnode, Option.map_some, Option.bind_some, hchildren]

theorem length_names : s.names.faces.length = s.nodes.length := List.length_map ..

theorem face_names (hnode : s.nodes[id]? = some node) : s.names.faces[id]? = some node.face := by
  rw [Heap.names, List.getElem?_map, hnode]
  rfl

end heap

/-! ### Directories under their lock -/

def Locked.unlock (id : Nat) (l : Locked Nat Heap) : Heap := { l.rest with memory := l.memory }.setDirectory id l.directory

def Locked.names (id : Nat) (l : Locked Nat Heap) : Names := l.rest.names.setChildren id l.directory.children

theorem names_unlock {id : Nat} {l : Locked Nat Heap} : (l.unlock id).names = l.names id := names_setDirectory

structure Kept {α η : Type} (l l' : Locked α η) : Prop where
  children : l'.directory.children = l.directory.children
  rest : l'.rest = l.rest
  ino : l'.ino = l.ino

section locked
variable {α η : Type} {l l' l'' : Locked α η} {name oldName newName : Name}

theorem Kept.trans (h : Kept l l') (h' : Kept l' l'') : Kept l l'' :=
  ⟨h'.children.trans h.children, h'.rest.trans h.rest, h'.ino.trans h.ino⟩

theorem Kept.names {id : Nat} {l l' : Locked Nat Heap} (h : Kept l l') : l'.names id = l.names id := by
  rw [Locked.names, Locked.names, h.children, h.rest]

theorem onMemory_kept {β : Type} {x : MemoryM β} :
    wp (DirectoryM.onMemory x) l (fun _ l' => Kept l l') (fun _ l' => Kept l l') :=
  wp_zoom.2 (wp_true.mono (fun _ _ _ => ⟨rfl, rfl, rfl⟩) fun _ _ _ => ⟨rfl, rfl, rfl⟩)

theorem Kept.of_children {d : Directory α} (h : d.children = l.directory.children) : Kept l { l with directory := d } :=
  ⟨h, rfl, rfl⟩

@[simp] theorem wp_change {f : Directory α → Directory α} {Q : Unit → Locked α η → Prop} {E : Errno → Locked α η → Prop} :
    wp (DirectoryM.change f) l Q E ↔ Q () { l with directory := f l.directory } := wp_modify

theorem whiteout_kept : wp (DirectoryM.whiteout name) l (fun _ l' => Kept l l') (fun _ l' => Kept l l') := by
  unfold DirectoryM.whiteout
  rw [wp_bind, wp_change, wp_bind, wp_get, wp_ite]
  have hforget : Kept l { l with directory := l.directory.forget name } := .of_children rfl
  refine ⟨fun _ => ?_, fun _ => wp_pure.2 hforget⟩
  rw [wp_bind, wp_discard]
  refine onMemory_kept.mono (fun _ l' h => wp_change.2 ?_) fun _ _ h => hforget.trans h
  exact (hforget.trans h).trans (.of_children rfl)

theorem not_mem_iff {m : Entries α} : name ∉ m ↔ m[name]? = none := by
  rw [Std.ExtTreeMap.mem_iff_isSome_getElem?, Bool.not_eq_true, Option.isSome_eq_false_iff, Option.isNone_iff_eq_none]

theorem insertChild_locked {child : Nat → η → α × η} :
    wp (DirectoryM.insertChild name child) l
      (fun _ l' => l.directory.children[name]? = none ∧
        l'.directory.children = l.directory.children.insert name (child l.ino l.rest).1 ∧ l'.rest = (child l.ino l.rest).2)
      (fun _ l' => Kept l l') := by
  unfold DirectoryM.insertChild
  rw [wp_bind, wp_change, wp_bind, wp_get, wp_bind, wp_ensure]
  have hreveal : Kept l { l with directory := l.directory.reveal name } := .of_children rfl
  refine ⟨fun hfree => ?_, fun _ => hreveal⟩
  rw [wp_bind]
  refine onMemory_kept.mono (fun _ l' h => wp_modify.2 ⟨not_mem_iff.1 hfree, ?_⟩) fun _ _ h => hreveal.trans h
  have hkept := hreveal.trans h
  rw [Locked.place, Directory.put, hkept.children, hkept.rest, hkept.ino]
  exact ⟨rfl, rfl⟩

theorem insertChildPrepared_locked {child : Nat → η → α × η} {replaceExisting : Bool} :
    wp (DirectoryM.insertChildPrepared name child replaceExisting) l
      (fun _ l' => l'.directory.children = l.directory.children.insert name (child l.ino l.rest).1 ∧
        l'.rest = (child l.ino l.rest).2)
      (fun _ l' => Kept l l' ∧ name ∈ l.directory.children ∧ replaceExisting = false) := by
  unfold DirectoryM.insertChildPrepared
  rw [wp_bind, wp_change, wp_bind, wp_get, wp_bind, wp_ensure]
  refine ⟨fun _ => wp_modify.2 ⟨rfl, rfl⟩, fun hbusy => ⟨.of_children rfl, ?_⟩⟩
  rw [Classical.not_imp, Bool.not_eq_true] at hbusy
  exact hbusy

theorem reserveChildSlot_locked {replaceExisting : Bool} :
    wp (DirectoryM.reserveChildSlot name replaceExisting) l
      (fun _ l' => l' = l ∧ (name ∈ l.directory.children → replaceExisting)) (fun _ l' => l' = l) := by
  unfold DirectoryM.reserveChildSlot
  rw [wp_bind, wp_get, wp_ensure]
  exact ⟨fun h => ⟨rfl, h⟩, fun _ => rfl⟩

theorem removeChildUnchecked_locked :
    wp (DirectoryM.removeChildUnchecked name) l
      (fun child l' => l.directory.children[name]? = some child ∧ l'.directory.children = l.directory.children.erase name ∧
        l'.rest = l.rest)
      (fun _ l' => Kept l l') := by
  unfold DirectoryM.removeChildUnchecked
  rw [wp_bind]
  refine whiteout_kept.mono (fun _ l' h => ?_) fun _ _ h => h
  rw [wp_bind, wp_get, wp_bind, wp_okOr]
  refine ⟨fun child hchild => ?_, fun _ => h⟩
  rw [wp_bind, wp_change, wp_pure]
  rw [h.children] at hchild
  exact ⟨hchild, by rw [Directory.erase, h.children], h.rest⟩

theorem renameInsideParent_locked :
    wp (DirectoryM.renameInsideParent oldName newName) l
      (fun _ l' => oldName = newName ∧ Kept l l' ∨ oldName ≠ newName ∧ ∃ child,
      l.directory.children[oldName]? = some child ∧
        l'.directory.children = ((l.directory.children.erase oldName).erase newName).insert newName child ∧
        l'.rest = l.rest)
      (fun _ l' => Kept l l') := by
  unfold DirectoryM.renameInsideParent
  rw [wp_bind, wp_change, wp_bind]
  have hforget : Kept l { l with directory := l.directory.forget newName } := .of_children rfl
  refine whiteout_kept.mono (fun _ l' h => ?_) fun _ _ h => hforget.trans h
  rw [wp_bind, wp_change]
  have hkept := (hforget.trans h).trans (.of_children (d := l'.directory.setOverlay fun o =>
    { o with whiteouts := o.whiteouts.erase newName }) rfl)
  rw [wp_ite]
  refine ⟨fun heq => wp_pure.2 (.inl ⟨heq, hkept⟩), fun hne => ?_⟩
  rw [wp_bind, wp_get, wp_bind, wp_okOr]
  refine ⟨fun child hchild => wp_change.2 (.inr ⟨hne, child, ?_, ?_, hkept.rest⟩), fun _ => hkept⟩
  · rwa [hkept.children] at hchild
  · exact congrArg (fun m : Entries α => ((m.erase oldName).erase newName).insert newName child) hkept.children

end locked

/-! ### Loading -/

section load
variable {id : Nat} {l l' : Locked Nat Heap} {name : Name} {node : Node}

theorem children?_locked (hid : id < l.rest.nodes.length) : (l.names id).children? id = some l.directory.children := by
  rw [Locked.names, Names.children?_setChildren (length_names ▸ hid), if_pos rfl]

structure Attached (id : Nat) (l : Locked Nat Heap) : Prop where
  lt : id < l.rest.nodes.length
  below : (l.names id).Below rootId id

theorem names_place :
    (l.place name (keep node l.rest)).names id = (l.names id).addFresh id l.directory.children name node.face := by
  have hlength : (l.names id).faces.length = l.rest.nodes.length := by
    rw [Locked.names, Names.length_setChildren, length_names]
  rw [Names.addFresh, hlength, Locked.names, Locked.names, Names.setChildren_push_setChildren, ← names_push]
  rfl

theorem addChild_locked (h : Attached id l) (hfree : l.directory.children[name]? = none) (hnode : FromVolume disk node)
    {E : Errno → Locked Nat Heap → Prop} :
    wp (DirectoryM.addChild keep name node) l
      (fun child l' => Names.Load disk (l.names id) (l'.names id) ∧ Attached id l' ∧
        l'.directory.children = l.directory.children.insert name child) E := by
  obtain ⟨fs, hfresh, horigin, hdisk⟩ := hnode
  have hload : Names.Load disk (l.names id) ((l.place name (keep node l.rest)).names id) := by
    rw [names_place]
    exact .entry h.below (children?_locked h.lt) hfree hfresh horigin hdisk
  unfold DirectoryM.addChild
  rw [wp_bind, wp_get, wp_bind, wp_set, wp_pure]
  refine ⟨hload, ⟨?_, ?_⟩, rfl⟩
  · exact Nat.lt_of_lt_of_le h.lt (by rw [Locked.place, keep, Heap.push, List.length_append]; exact Nat.le_add_right _ _)
  · exact (Names.Loads.below_mono (.single hload) h.below)

structure Loaded (disk : Nat → Ext4FileSystem) (id : Nat) (l l' : Locked Nat Heap) : Prop where
  loads : Names.Loads disk (l.names id) (l'.names id)
  attached : Attached id l'

theorem Loaded.refl (h : Attached id l) : Loaded disk id l l := ⟨.refl, h⟩

theorem Loaded.trans {l'' : Locked Nat Heap} (h : Loaded disk id l l') (h' : Loaded disk id l' l'') :
    Loaded disk id l l'' :=
  ⟨h.loads.trans h'.loads, h'.attached⟩

theorem Kept.loaded (h : Kept l l') (hl : Attached id l) : Loaded disk id l l' := by
  refine ⟨?_, ?_, ?_⟩
  · rw [h.names]
    exact .refl
  · rw [h.rest]
    exact hl.lt
  · rw [h.names]
    exact hl.below

theorem missing_locked {E : Errno → Locked Nat Heap → Prop} :
    wp (DirectoryM.missing name) l (fun r l' => Kept l l' ∧ r = none) E := by
  unfold DirectoryM.missing
  rw [wp_bind, wp_attempt]
  have hmemory : ∀ memory, Kept l { l with memory } := fun memory => ⟨rfl, rfl, rfl⟩
  refine wp_true.mono (fun _ memory _ => ?_) fun _ memory _ => wp_pure.2 ⟨hmemory memory, rfl⟩
  dsimp only
  rw [wp_bind, wp_change, wp_pure]
  exact ⟨(hmemory memory).trans (.of_children rfl), rfl⟩

theorem lookupChild_locked (h : Attached id l) :
    wp (DirectoryM.lookupChild disk keep name) l
      (fun r l' => Loaded disk id l l' ∧ r = l'.directory.children[name]?) (fun _ l' => Loaded disk id l l') := by
  unfold DirectoryM.lookupChild
  rw [wp_bind, wp_get]
  split
  · rename_i child hchild
    exact wp_pure.2 ⟨.refl h, hchild.symm⟩
  · rename_i hfree
    split
    · exact wp_pure.2 ⟨.refl h, hfree.symm⟩
    · split
      · refine missing_locked.mono (fun r l' ⟨hkept, hr⟩ => ⟨hkept.loaded h, ?_⟩) fun _ _ h => h
        rw [hr, hkept.children, hfree]
      · exact wp_throw.2 (.refl h)
      · rename_i info hinfo
        rw [wp_bind, wp_ofExcept]
        refine ⟨fun node hnode => ?_, fun _ _ => .refl h⟩
        rw [wp_bind, wp_discard]
        refine onMemory_kept.mono (fun _ l₁ h₁ => ?_) fun _ _ hkept => hkept.loaded h
        rw [wp_bind, wp_change, wp_map]
        have hkept := h₁.trans (.of_children (d := l₁.directory.forget name) rfl)
        have hloaded : Loaded disk _ _ _ := hkept.loaded h
        have hfree' : (l₁.directory.forget name).children[name]? = none := h₁.children ▸ hfree
        refine (addChild_locked hloaded.attached hfree' (fromVolume_lookup hinfo hnode)).mono (fun child l' ⟨hload,
          hattached, hput⟩ => ?_)
          fun _ _ h => h
        refine ⟨⟨hloaded.loads.tail hload, hattached⟩, ?_⟩
        rw [hput, Entries.get_insert, if_pos rfl]

theorem loadEntry_locked {entry : Name × Node} (h : Attached id l) (hnode : FromVolume disk entry.2)
    {E : Errno → Locked Nat Heap → Prop} :
    wp (DirectoryM.loadEntry keep entry) l (fun _ l' => Loaded disk id l l') E := by
  unfold DirectoryM.loadEntry
  rw [wp_bind, wp_get, wp_ite]
  refine ⟨fun _ => wp_pure.2 (.refl h), fun hfree => ?_⟩
  rw [not_or, not_mem_iff] at hfree
  rw [wp_discard]
  exact (addChild_locked h hfree.2 hnode).mono (fun _ l' ⟨hload, hattached, _⟩ => ⟨.single hload, hattached⟩) fun _ _ h => h

theorem populate_locked (h : Attached id l) :
    wp (DirectoryM.populate disk keep) l (fun _ l' => Loaded disk id l l') (fun _ l' => Loaded disk id l l') := by
  unfold DirectoryM.populate
  rw [wp_bind, wp_get]
  split
  · exact wp_pure.2 (.refl h)
  · rename_i overlay hoverlay
    rw [wp_ite]
    refine ⟨fun _ => wp_pure.2 (.refl h), fun _ => ?_⟩
    split
    · exact wp_throw.2 (.refl h)
    · rename_i entries hentries
      rw [wp_bind]
      refine onMemory_kept.mono (fun _ l₁ h₁ => ?_) fun _ _ hkept => hkept.loaded h
      rw [wp_bind, wp_ofExcept]
      refine ⟨fun loaded hloaded => ?_, fun _ _ => h₁.loaded h⟩
      have hnodes := fromVolume_list hentries hloaded
      -- every entry that is left comes from the volume
      have hloop := wp_forM (s := l₁) (E := fun _ l' => Loaded disk id l l') (l := loaded) (f := DirectoryM.loadEntry keep)
        (fun (rest : List (Name × Node)) l' => Loaded disk id l l' ∧ ∀ entry ∈ rest, FromVolume disk entry.2)
        (fun entry rest l' ⟨hl', hrest⟩ =>
          (loadEntry_locked hl'.attached (hrest entry List.mem_cons_self)).mono
            (fun _ l'' hl'' => ⟨hl'.trans hl'', fun entry hentry => hrest entry (List.mem_cons_of_mem _ hentry)⟩)
            fun _ _ h => h)
        ⟨h₁.loaded h, hnodes⟩
      rw [wp_bind]
      refine hloop.mono (fun _ l' ⟨hl', _⟩ => wp_change.2 ?_) fun _ _ h => h
      exact hl'.trans ((Kept.of_children (d := l'.directory.setOverlay _) rfl).loaded hl'.attached)

end load

/-! ### Lookup -/

section lookup
variable {s t : Heap} {id p : Nat} {name : Name} {node : Node} {d : Directory Nat}

theorem inDirectory_spec {β : Type} {x : DirectoryM Nat Heap β} {Q : β → Heap → Prop} {E : Errno → Heap → Prop}
    (hbody : ∀ node d, s.nodes[id]? = some node → node.state = .directory d →
      wp x ⟨node.ino, d, s.memory, s⟩ (fun a l => Q a (l.unlock id)) (fun e l => E e (l.unlock id)))
    (hfail : ∀ e, E e s) : wp (inDirectory id x) s Q E := by
  unfold inDirectory nodeAt
  rw [wp_bind, wp_bind, wp_get, wp_okOr]
  refine ⟨fun node hnode => ?_, fun _ => hfail _⟩
  split
  · rename_i d hstate
    exact wp_zoom.2 (hbody node d hnode hstate)
  · exact wp_throw.2 (hfail _)

theorem names_lock (hnode : s.nodes[id]? = some node) (hstate : node.state = .directory d) :
    Locked.names id ⟨node.ino, d, s.memory, s⟩ = s.names := Names.setChildren_self (children?_names hnode hstate)

theorem attached_lock (hnode : s.nodes[id]? = some node) (hstate : node.state = .directory d)
    (hbelow : s.names.Below rootId id) : Attached id ⟨node.ino, d, s.memory, s⟩ :=
  ⟨(List.getElem?_eq_some_iff.1 hnode).1, names_lock hnode hstate ▸ hbelow⟩

theorem nodeAt_spec {E : Errno → Heap → Prop} (hfail : ∀ e, E e s) :
    wp (nodeAt id) s (fun node t => t = s ∧ s.nodes[id]? = some node) E := by
  unfold nodeAt
  rw [wp_bind, wp_get, wp_okOr]
  exact ⟨fun node hnode => ⟨rfl, hnode⟩, fun _ => hfail _⟩

theorem onMemory_spec {β : Type} {x : MemoryM β} :
    wp (onMemory x) s (fun _ t => t.nodes = s.nodes ∧ t.names = s.names) (fun _ t => t.names = s.names) :=
  wp_zoom.2 (wp_true.mono (fun _ _ _ => ⟨rfl, rfl⟩) fun _ _ _ => rfl)

theorem lookupChild_spec (hbelow : s.names.Below rootId p) :
    wp (lookupChild disk p name) s
      (fun r t => Names.Loads disk s.names t.names ∧ ∃ m, t.names.children? p = some m ∧ r = m[name]?)
      (fun _ t => Names.Loads disk s.names t.names) := by
  unfold lookupChild
  rw [wp_bind, wp_ofExcept]
  refine ⟨fun _ _ => ?_, fun _ _ => .refl⟩
  refine inDirectory_spec (fun node d hnode hstate => ?_) fun _ => .refl
  have hnames := names_lock hnode hstate
  refine (lookupChild_locked (attached_lock hnode hstate hbelow)).mono (fun r l ⟨hloaded, hr⟩ => ?_) fun _ l hloaded => ?_
  · rw [names_unlock]
    exact ⟨hnames ▸ hloaded.loads, _, children?_locked hloaded.attached.lt, hr⟩
  · rw [names_unlock]
    exact hnames ▸ hloaded.loads

theorem requireChild_spec (hbelow : s.names.Below rootId p) :
    wp (requireChild disk p name) s (fun c t => Names.Loads disk s.names t.names ∧ t.names.Entry p name c)
      (fun _ t => Names.Loads disk s.names t.names) := by
  unfold requireChild
  rw [wp_bind]
  refine (lookupChild_spec hbelow).mono (fun r t ⟨hloads, m, hm, hr⟩ => ?_) fun _ _ h => h
  rw [wp_okOr]
  exact ⟨fun c hc => ⟨hloads, m, hm, hr ▸ hc⟩, fun _ => hloads⟩

theorem populateExt4Directory_spec (hbelow : s.names.Below rootId id) :
    wp (populateExt4Directory disk id) s (fun _ t => Names.Loads disk s.names t.names)
      (fun _ t => Names.Loads disk s.names t.names) := by
  refine inDirectory_spec (fun node d hnode hstate => ?_) fun _ => .refl
  have hnames := names_lock hnode hstate
  refine (populate_locked (attached_lock hnode hstate hbelow)).mono (fun _ l hloaded => ?_) fun _ l hloaded => ?_
  · rw [names_unlock]
    exact hnames ▸ hloaded.loads
  · rw [names_unlock]
    exact hnames ▸ hloaded.loads

theorem ensureEmptyDirectory_spec (hbelow : s.names.Below rootId id) :
    wp (ensureEmptyDirectory disk id) s
      (fun _ t => Names.Loads disk s.names t.names ∧ t.names.children? id = some ∅)
      (fun _ t => Names.Loads disk s.names t.names) := by
  unfold ensureEmptyDirectory
  rw [wp_bind]
  refine (populateExt4Directory_spec hbelow).mono (fun _ t hloads => ?_) fun _ _ h => h
  refine inDirectory_spec (fun node d hnode hstate => ?_) fun _ => hloads
  have hnames : Locked.names id ⟨node.ino, d, t.memory, t⟩ = t.names := names_lock hnode hstate
  rw [wp_bind, wp_get, wp_ensure, names_unlock, hnames]
  refine ⟨fun hempty => ⟨hloads, ?_⟩, fun _ => hloads⟩
  rw [children?_names hnode hstate, Std.ExtTreeMap.isEmpty_iff.1 hempty]

structure Found (disk : Nat → Ext4FileSystem) (s : Heap) (id : Nat) (t : Heap) : Prop where
  loads : Names.Loads disk s.names t.names
  below : t.names.Below rootId id

theorem walk_spec {follow : Path → VfsM Nat} {followFinal : Bool}
    (hfollow : ∀ path s, wp (follow path) s (fun id t => Found disk s id t) (fun _ t => Names.Loads disk s.names t.names))
    {before rest : List Name} {current : Nat} (hbelow : s.names.Below rootId current) :
    wp (walk disk follow followFinal before current rest) s (fun id t => Found disk s id t)
      (fun _ t => Names.Loads disk s.names t.names) := by
  induction rest generalizing s before current with
  | nil => exact wp_pure.2 ⟨.refl, hbelow⟩
  | cons component rest ih =>
    unfold walk
    rw [wp_bind]
    refine (requireChild_spec hbelow).mono (fun next t ⟨hloads, hentry⟩ => ?_) fun _ _ h => h
    rw [wp_bind]
    refine (nodeAt_spec fun _ => hloads).mono (fun node u ⟨hu, hnode⟩ => ?_) fun _ _ h => h
    subst hu
    rw [wp_ite]
    refine ⟨fun _ => ?_, fun _ => ?_⟩
    · -- a link starts the lookup again
      have hlink : wp (resolveLink node before rest) u (fun _ v => v.names = u.names) (fun _ v => v.names = u.names) := by
        unfold resolveLink
        split
        · exact onMemory_spec.mono (fun _ _ h => h.2) fun _ _ h => h
        · exact wp_throw.2 rfl
      rw [wp_bind]
      refine hlink.mono (fun path v hv => ?_) fun _ v hv => hv ▸ hloads
      refine (hfollow path v).mono (fun id w hw => ⟨hloads.trans (hv ▸ hw.loads), hw.below⟩) fun _ w hw => ?_
      exact hloads.trans (hv ▸ hw)
    · refine (ih ((hloads.below_mono hbelow).edge hentry)).mono (fun id v hv => ?_) fun _ v hv => hloads.trans hv
      exact ⟨hloads.trans hv.loads, hv.below⟩

theorem lookupFollow_spec {followFinal : Bool} {left : Nat} {path : Path} :
    wp (lookupFollow disk followFinal left path) s (fun id t => Found disk s id t)
      (fun _ t => Names.Loads disk s.names t.names) := by
  induction left generalizing s path with
  | zero => exact wp_throw.2 .refl
  | succ left ih =>
    unfold lookupFollow
    rw [wp_bind]
    refine onMemory_spec.mono (fun parts t ⟨_, ht⟩ => ?_) fun _ t ht => ht ▸ .refl
    refine (walk_spec (fun path s => ih) .refl).mono (fun id u hu => ⟨ht ▸ hu.loads, hu.below⟩) fun _ u hu => ?_
    exact ht ▸ hu

theorem ensureWritable_spec {E : Errno → Heap → Prop} (hfail : ∀ e, E e s) :
    wp (ensureWritable id) s (fun _ t => t = s) E := by
  unfold ensureWritable isNodeReadOnly
  rw [wp_bind, wp_bind]
  refine (nodeAt_spec hfail).mono (fun node t ⟨ht, _⟩ => ?_) fun _ _ h => h
  subst ht
  rw [wp_pure, wp_ensure]
  exact ⟨fun _ => rfl, fun _ => hfail _⟩

theorem parentOf_spec {path : Path} :
    wp (parentOf disk path) s (fun r t => Found disk s r.1 t) (fun _ t => Names.Loads disk s.names t.names) := by
  unfold parentOf
  rw [wp_bind, wp_ofExcept]
  refine ⟨fun split _ => ?_, fun _ _ => .refl⟩
  dsimp only
  rw [wp_bind]
  refine lookupFollow_spec.mono (fun id t ht => ?_) fun _ _ h => h
  rw [wp_bind]
  refine (ensureWritable_spec fun _ => ht.loads).mono (fun _ u hu => ?_) fun _ _ h => h
  subst hu
  exact wp_pure.2 ht

end lookup

end Vfs

end SudoOS
