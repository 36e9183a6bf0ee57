import SudoOS.Theorems.VfsLookup

/-! What each call of the VFS does to the namespace. -/

namespace SudoOS

namespace Vfs

open Ext4 Program

namespace Names

def bump (s : Names) : Names := { s with nextInode := (s.nextInode + 1) % 2 ^ 64 }

inductive Made (s : Names) : Names → Prop
  | mk {p : Nat} {m : Entries Nat} {n : Name} {f : Face} (hbelow : s.Below rootId p) (hm : s.children? p = some m)
      (hfree : m[n]? = none) (hfresh : Face.Fresh f) (hino : f.ino = s.nextInode) (horigin : f.origin = none) :
      Made s (s.bump.addFresh p m n f)

inductive Linked (s : Names) (c : Nat) : Names → Prop
  | mk {p : Nat} {m : Entries Nat} {n : Name} (hbelow : s.Below rootId p) (hm : s.children? p = some m)
      (hfree : m[n]? = none) (hlt : c < s.faces.length) (hfile : ¬ s.IsDir c) :
      Linked s c ((s.setChildren p (m.insert n c)).relink c fun k => (k + 1) % 2 ^ 64)

inductive Unlinked (s : Names) : Names → Prop
  | mk {p c : Nat} {m : Entries Nat} {n : Name} (hm : s.children? p = some m) (hc : m[n]? = some c)
      (hleaf : s.children? c = none ∨ s.children? c = some ∅) :
      Unlinked s ((s.setChildren p (m.erase n)).relink c fun k => (k + (2 ^ 64 - 1)) % 2 ^ 64)

structure Renamed (s : Names) (p : Nat) (n : Name) (q : Nat) (k : Name) (c : Nat) (t : Names) : Prop where
  source : s.Entry p n c
  below : s.Below rootId q
  isDir : s.IsDir q
  distinct : ¬ (p = q ∧ n = k)
  target : ∀ d, s.Entry q k d → NamedTree.Leaf s.Entry d ∧ (s.IsDir c ↔ s.IsDir d)
  entry : t.Entry = NamedTree.add (NamedTree.cut (NamedTree.cut s.Entry q k) p n) q k c
  face : ∀ {id : Nat} {f : Face}, s.faces[id]? = some f → ∃ f', t.faces[id]? = some f' ∧ Face.Same f f'
  length : t.faces.length = s.faces.length
  nextInode : t.nextInode = s.nextInode

end Names

variable {disk : Nat → Ext4FileSystem} {s t : Heap} {p id : Nat} {name : Name} {node : Node}

/-! ### Entries -/

theorem insertChild_spec {child : Nat → Heap → Nat × Heap} :
    wp (insertChild p name child) s
      (fun _ t => ∃ m ino, s.names.children? p = some m ∧ m[name]? = none ∧
        t.names = (child ino s).2.names.setChildren p (m.insert name (child ino s).1))
      (fun _ t => t.names = s.names) := by
  unfold insertChild
  rw [wp_bind, wp_ofExcept]
  refine ⟨fun _ _ => ?_, fun _ _ => rfl⟩
  refine inDirectory_spec (fun node d hnode hstate => ?_) fun _ => rfl
  refine insertChild_locked.mono (fun _ l ⟨hfree, hchildren, hrest⟩ => ?_) fun _ l hkept => ?_
  · refine ⟨d.children, node.ino, children?_names hnode hstate, hfree, ?_⟩
    rw [names_unlock, Locked.names, hchildren, hrest]
  · rw [names_unlock, hkept.names, names_lock hnode hstate]

theorem newNode_spec {mode : Nat} {readOnly : Bool} {state : NodeState} {E : Errno → Heap → Prop} :
    wp (newNode mode readOnly state) s
      (fun node t => t.names = s.names.bump ∧ node.face = ⟨s.nextInode, 1, mode, state.children, none⟩) E := by
  unfold newNode allocateInode
  rw [wp_bind, wp_bind, wp_get, wp_bind, wp_set, wp_pure, wp_pure]
  exact ⟨rfl, rfl⟩

theorem create_spec {mode : Nat} {readOnly : Bool} {state : NodeState} (hbelow : s.names.Below rootId p)
    (hleaf : state.children = none ∨ state.children = some ∅)
    (hmode : FileType.ofMode mode = .directory ↔ state.children.isSome) :
    wp (newNode mode readOnly state >>= fun node => insertChild p name (fresh node)) s
      (fun _ t => Names.Made s.names t.names) (fun _ t => t.names = s.names.bump) := by
  rw [wp_bind]
  refine newNode_spec.mono (fun node t ⟨ht, hface⟩ => ?_) fun _ _ h => h
  refine insertChild_spec.mono (fun _ u ⟨m, ino, hm, hfree, hu⟩ => ?_) fun _ u hu => hu.trans ht
  have hmade : u.names = s.names.bump.addFresh p m name node.face := by
    have hpush : (fresh node ino t).2.names = t.names.push node.face := names_push
    have hlength : t.nodes.length = s.names.bump.faces.length := by rw [← length_names, ht]
    rw [hu, hpush, ht, Names.addFresh, ← hlength]
    rfl
  rw [hmade]
  rw [ht] at hm
  rw [hface]
  exact .mk hbelow hm hfree ⟨hleaf, hmode, rfl⟩ rfl rfl

theorem removeChildUnchecked_spec :
    wp (removeChildUnchecked p name) s
      (fun c t => ∃ m, s.names.children? p = some m ∧ m[name]? = some c ∧ t.names = s.names.setChildren p (m.erase name))
      (fun _ t => t.names = s.names) := by
  unfold removeChildUnchecked
  rw [wp_bind, wp_ofExcept]
  refine ⟨fun _ _ => ?_, fun _ _ => rfl⟩
  refine inDirectory_spec (fun node d hnode hstate => ?_) fun _ => rfl
  refine removeChildUnchecked_locked.mono (fun c l ⟨hc, hchildren, hrest⟩ => ?_) fun _ l hkept => ?_
  · refine ⟨d.children, children?_names hnode hstate, hc, ?_⟩
    rw [names_unlock, Locked.names, hchildren, hrest]
  · rw [names_unlock, hkept.names, names_lock hnode hstate]

theorem reserveChildSlot_spec {replaceExisting : Bool} :
    wp (reserveChildSlot p name replaceExisting) s
      (fun _ t => t.names = s.names ∧ ∃ m, s.names.children? p = some m ∧ (name ∈ m → replaceExisting))
      (fun _ t => t.names = s.names) := by
  unfold reserveChildSlot
  rw [wp_bind, wp_ofExcept]
  refine ⟨fun _ _ => ?_, fun _ _ => rfl⟩
  refine inDirectory_spec (fun node d hnode hstate => ?_) fun _ => rfl
  have hnames := names_lock hnode hstate
  refine reserveChildSlot_locked.mono (fun _ l ⟨hl, hslot⟩ => ?_) fun _ l hl => ?_
  · subst hl
    exact ⟨names_unlock.trans hnames, d.children, children?_names hnode hstate, hslot⟩
  · subst hl
    exact names_unlock.trans hnames

/-- With a slot reserved, the entry is made. -/
theorem insertChildPrepared_spec {child : Nat → Heap → Nat × Heap} {replaceExisting : Bool} {m : Entries Nat}
    (hname : validateComponent name = .ok ()) (hm : s.names.children? p = some m) (hslot : name ∈ m → replaceExisting) :
    wp (insertChildPrepared p name child replaceExisting) s
      (fun _ t => ∃ ino, t.names = (child ino s).2.names.setChildren p (m.insert name (child ino s).1))
      (fun _ _ => False) := by
  unfold insertChildPrepared
  rw [wp_bind, hname, wp_ofExcept_ok]
  obtain ⟨face, hface, hchildren⟩ := Option.bind_eq_some_iff.1 hm
  obtain ⟨node, hnode, rfl⟩ : ∃ node, s.nodes[p]? = some node ∧ node.face = face := by
    rwa [Heap.names, List.getElem?_map, Option.map_eq_some_iff] at hface
  unfold inDirectory nodeAt
  rw [wp_bind, wp_bind, wp_get, wp_okOr_of_eq hnode]
  cases hstate : node.state with
  | directory d =>
    have hsame : d.children = m := by
      have hd := children?_names hnode hstate
      rw [hm] at hd
      exact (Option.some.inj hd).symm
    refine wp_zoom.2 (insertChildPrepared_locked.mono (fun _ l hl => ⟨node.ino, ?_⟩) fun _ l hbusy => ?_)
    · obtain ⟨hchildren, hrest⟩ := hl
      have hunlock : (l.unlock p).names = l.names p := names_unlock
      rw [← hsame]
      refine hunlock.trans ?_
      rw [Locked.names, hchildren, hrest]
    · rw [hslot (hsame ▸ hbusy.2.1)] at hbusy
      cases hbusy.2.2
  | _ =>
    rw [Node.face, hstate] at hchildren
    cases hchildren

theorem renameInsideParent_spec {oldName newName : Name} :
    wp (renameInsideParent p oldName newName) s
      (fun _ t => oldName = newName ∧ t.names = s.names ∨ oldName ≠ newName ∧ ∃ m c, s.names.children? p = some m ∧
        m[oldName]? = some c ∧ t.names = s.names.setChildren p (((m.erase oldName).erase newName).insert newName c))
      (fun _ t => t.names = s.names) := by
  unfold renameInsideParent
  rw [wp_bind, wp_ofExcept]
  refine ⟨fun _ _ => ?_, fun _ _ => rfl⟩
  rw [wp_bind, wp_ofExcept]
  refine ⟨fun _ _ => ?_, fun _ _ => rfl⟩
  refine inDirectory_spec (fun node d hnode hstate => ?_) fun _ => rfl
  have hnames := names_lock hnode hstate
  refine renameInsideParent_locked.mono (fun _ l hl => ?_) fun _ l hkept => ?_
  · rcases hl with ⟨heq, hkept⟩ | ⟨hne, c, hc, hchildren, hrest⟩
    · exact .inl ⟨heq, by rw [names_unlock, hkept.names, hnames]⟩
    · refine .inr ⟨hne, d.children, c, children?_names hnode hstate, hc, ?_⟩
      rw [names_unlock, Locked.names, hchildren, hrest]
  · rw [names_unlock, hkept.names, hnames]

theorem names_adopt {ino c : Nat} : (adopt c ino s).2.names = s.names := names_modifyNode_of_face fun _ _ => rfl

theorem cloneComponent_spec :
    wp (onMemory (cloneComponent name)) s
      (fun r t => r = name ∧ validateComponent name = .ok () ∧ t.nodes = s.nodes ∧ t.names = s.names)
      (fun _ t => t.names = s.names) := by
  unfold onMemory cloneComponent
  rw [wp_zoom, wp_bind, wp_ofExcept]
  refine ⟨fun _ hname => ?_, fun _ _ => rfl⟩
  rw [wp_bind]
  exact wp_true.mono (fun _ _ _ => wp_pure.2 ⟨rfl, hname, rfl, rfl⟩) fun _ _ _ => rfl

/-! ### Types of nodes -/

theorem fileType_iff (hs : s.names.Sound) (hnode : s.nodes[id]? = some node) :
    node.fileType = .directory ↔ s.names.IsDir id := by
  have hface := face_names hnode
  have hcoherent := hs.coherent _ (List.mem_iff_getElem?.2 ⟨id, hface⟩)
  rw [Names.IsDir, Names.children?, hface]
  exact hcoherent

theorem Names.Loads.isDir_iff {s t : Names} (h : Names.Loads disk s t) (hid : id < s.faces.length) :
    t.IsDir id ↔ s.IsDir id := by
  obtain ⟨f', hf', hsame⟩ := h.face (List.getElem?_eq_getElem hid)
  rw [Names.IsDir, Names.IsDir, Names.children?, Names.children?, hf', List.getElem?_eq_getElem hid, Option.bind_some,
    Option.bind_some, hsame.isSome]

theorem Names.leaf_of_children {s : Names} (h : s.children? id = none ∨ s.children? id = some ∅) :
    NamedTree.Leaf s.Entry id := by
  rintro n c ⟨m, hm, hc⟩
  rcases h with h | h
  · rw [h] at hm
    cases hm
  · rw [h] at hm
    cases hm
    rw [Std.ExtTreeMap.getElem?_empty] at hc
    cases hc

theorem Names.children?_eq_none {s : Names} : s.children? id = none ↔ ¬ s.IsDir id := by
  rw [Names.IsDir, Bool.not_eq_true, Option.isSome_eq_false_iff, Option.isNone_iff_eq_none]

theorem Names.below_lt {s : Names} {v w : Nat} (hwf : s.Wf) (hv : v < s.faces.length) (h : s.Below v w) :
    w < s.faces.length := by
  induction h with
  | refl => exact hv
  | tail _ hedge _ =>
    obtain ⟨n, hentry⟩ := hedge
    exact hwf.inRange hentry

/-! ### Calls -/

section calls
variable {path oldPath newPath : Path}

def Names.Fizzled (disk : Nat → Ext4FileSystem) (s t : Names) : Prop := ∃ u, Names.Loads disk s u ∧ (t = u ∨ t = u.bump)

theorem Names.Loads.fizzled {s t : Names} (h : Names.Loads disk s t) : Names.Fizzled disk s t := ⟨t, h, .inl rfl⟩

def Names.Created (disk : Nat → Ext4FileSystem) (s t : Names) : Prop := ∃ u, Names.Loads disk s u ∧ Names.Made u t

theorem ofMode_directory {mode : Nat} : FileType.ofMode (0o040000 ||| (mode &&& 0o777)) = .directory := by
  have hmask : (0o040000 ||| (mode &&& 0o777)) &&& 0o170000 = 0o040000 := by
    rw [Nat.and_or_distrib_right, Nat.and_assoc]
    simp
  simp only [FileType.ofMode, hmask]

/-- The common part of the calls that make a node. -/
theorem createAt_spec {mode : Nat} {readOnly : Bool} {state : NodeState}
    (hleaf : state.children = none ∨ state.children = some ∅)
    (hmode : FileType.ofMode mode = .directory ↔ state.children.isSome) :
    wp (parentOf disk path >>= fun r => newNode mode readOnly state >>= fun node => insertChild r.1 r.2 (fresh node)) s
      (fun _ t => Names.Created disk s.names t.names) (fun _ t => Names.Fizzled disk s.names t.names) := by
  rw [wp_bind]
  refine parentOf_spec.mono (fun r t ht => ?_) fun _ _ h => h.fizzled
  exact (create_spec ht.below hleaf hmode).mono (fun _ u hu => ⟨t.names, ht.loads, hu⟩)
    fun _ u hu => ⟨t.names, ht.loads, .inr hu⟩

theorem mkdir_spec {mode : Nat} :
    wp (mkdir disk path mode) s (fun _ t => Names.Created disk s.names t.names)
      (fun _ t => Names.Fizzled disk s.names t.names) := by
  unfold mkdir
  rw [wp_bind, wp_ensure]
  refine ⟨fun _ => ?_, fun _ => Names.Loads.fizzled .refl⟩
  exact createAt_spec (.inr rfl) ⟨fun _ => rfl, fun _ => ofMode_directory⟩

theorem symlink_spec {target : Path} :
    wp (symlink disk target path) s (fun _ t => Names.Created disk s.names t.names)
      (fun _ t => Names.Fizzled disk s.names t.names) := by
  unfold symlink
  rw [wp_bind, wp_ensure]
  refine ⟨fun _ => ?_, fun _ => Names.Loads.fizzled .refl⟩
  exact createAt_spec (.inl rfl) (by simp [FileType.ofMode, NodeState.children])

theorem createRegular_spec :
    wp (createRegular disk path) s (fun _ t => Names.Created disk s.names t.names)
      (fun _ t => Names.Fizzled disk s.names t.names) := by
  unfold createRegular
  rw [wp_bind]
  refine parentOf_spec.mono (fun r t ht => ?_) fun _ _ h => h.fizzled
  have hcreate : wp (newNode 0o100644 false (.regular []) >>= fun node => insertChild r.1 r.2 (fresh node)) t
      (fun _ u => Names.Made t.names u.names) (fun _ u => u.names = t.names.bump) :=
    create_spec ht.below (.inl rfl) (by decide)
  rw [wp_bind] at hcreate
  dsimp only
  rw [wp_bind]
  refine hcreate.mono (fun node u hu => ?_) fun _ u hu => ⟨t.names, ht.loads, .inr hu⟩
  rw [wp_bind]
  refine hu.mono (fun _ v hv => ?_) fun _ v hv => ⟨t.names, ht.loads, .inr hv⟩
  rw [wp_bind, wp_get, wp_pure]
  exact ⟨t.names, ht.loads, hv⟩

def Names.Opened (disk : Nat → Ext4FileSystem) (s t : Names) : Prop := Names.Fizzled disk s t ∨ Names.Created disk s t

theorem Names.Loads.created {s t u : Names} (h : Names.Loads disk s t) (hu : Names.Created disk t u) :
    Names.Created disk s u :=
  let ⟨v, hv, hmade⟩ := hu
  ⟨v, h.trans hv, hmade⟩

theorem Names.Loads.fizzled_of {s t u : Names} (h : Names.Loads disk s t) (hu : Names.Fizzled disk t u) :
    Names.Fizzled disk s u :=
  let ⟨v, hv, hlast⟩ := hu
  ⟨v, h.trans hv, hlast⟩

theorem lookupOrCreate_spec {flags : OpenFlags} :
    wp (lookupOrCreate disk path flags) s (fun _ t => Names.Opened disk s.names t.names)
      (fun _ t => Names.Opened disk s.names t.names) := by
  unfold lookupOrCreate
  rw [wp_bind, wp_attempt]
  refine lookupFollow_spec.mono (fun id t ht => ?_) fun e t ht => ?_
  · have hopened : Names.Opened disk s.names t.names := .inl ht.loads.fizzled
    dsimp only
    rw [wp_bind, wp_ensure]
    refine ⟨fun _ => ?_, fun _ => hopened⟩
    rw [wp_bind]
    refine (nodeAt_spec fun _ => hopened).mono (fun node u ⟨hu, _⟩ => ?_) fun _ _ h => h
    subst hu
    rw [wp_bind, wp_ensure, wp_pure]
    exact ⟨fun _ => hopened, fun _ => hopened⟩
  · split
    · rename_i heq
      cases heq
    · rw [wp_ite]
      refine ⟨fun _ => ?_, fun _ => wp_throw.2 (.inl ht.fizzled)⟩
      exact createRegular_spec.mono (fun _ u hu => .inr (ht.created hu)) fun _ u hu => .inl (ht.fizzled_of hu)
    · exact wp_throw.2 (.inl ht.fizzled)

theorem truncateToZero_spec :
    wp (truncateToZero id) s (fun _ t => t.names = s.names) (fun _ t => t.names = s.names) := by
  unfold truncateToZero
  rw [wp_bind]
  refine (nodeAt_spec (E := fun _ t => t.names = s.names) fun _ => rfl).mono (fun node t ⟨ht, hnode⟩ => ?_) fun _ _ h => h
  subst ht
  rw [wp_bind, wp_ensure]
  refine ⟨fun _ => ?_, fun _ => rfl⟩
  have hface : ∀ {state : NodeState}, state.children = none → node.state.children = none →
      (t.modifyNode id fun node => { node with state }).names = t.names := by
    intro state hnone hold
    refine names_modifyNode_of_face fun node' hnode' => ?_
    rw [hnode] at hnode'
    cases hnode'
    rw [Node.face, Node.face, hnone, hold]
  split
  · rename_i hstate
    exact wp_modify.2 (hface rfl (hstate ▸ rfl))
  · rename_i hstate
    exact wp_modify.2 (hface rfl (hstate ▸ rfl))
  · exact wp_throw.2 rfl
  · exact wp_throw.2 rfl
  · exact wp_pure.2 rfl
  · exact wp_throw.2 rfl
  · exact wp_throw.2 rfl

theorem openNode_spec {flags : OpenFlags} :
    wp (openNode disk path flags) s (fun _ t => Names.Opened disk s.names t.names)
      (fun _ t => Names.Opened disk s.names t.names) := by
  unfold openNode
  have hnothing : Names.Opened disk s.names s.names := .inl (Names.Loads.fizzled .refl)
  rw [wp_bind, wp_ensure]
  refine ⟨fun _ => ?_, fun _ => hnothing⟩
  rw [wp_bind]
  refine lookupOrCreate_spec.mono (fun id t ht => ?_) fun _ _ h => h
  rw [wp_bind]
  refine (nodeAt_spec fun _ => ht).mono (fun node u ⟨hu, _⟩ => ?_) fun _ _ h => h
  subst hu
  rw [wp_bind, wp_ensure]
  refine ⟨fun _ => ?_, fun _ => ht⟩
  rw [wp_bind, wp_ensure]
  refine ⟨fun _ => ?_, fun _ => ht⟩
  rw [wp_bind, wp_given]
  refine ⟨fun _ => ?_, fun _ => wp_pure.2 ht⟩
  exact truncateToZero_spec.mono (fun _ v hv => wp_pure.2 (hv ▸ ht)) fun _ v hv => hv ▸ ht

/-! ### Links -/

theorem link_spec {followSource : Bool} (hs : s.names.Sound) :
    wp (link disk oldPath newPath followSource) s
      (fun _ t => ∃ c m u, lookupFollow disk followSource (maxSymlinkFollows + 1) oldPath s = .ok c m ∧ Found disk s c m ∧
        c < m.names.faces.length ∧ Names.Loads disk m.names u ∧ Names.Linked u c t.names)
      (fun _ t => Names.Loads disk s.names t.names) := by
  have hlookup : (if followSource then lookup disk oldPath else lookupNofollow disk oldPath) =
      lookupFollow disk followSource (maxSymlinkFollows + 1) oldPath := by
    cases followSource <;> rfl
  unfold link
  rw [hlookup, wp_bind, wp_iff]
  have hspec : wp (lookupFollow disk followSource (maxSymlinkFollows + 1) oldPath) s (fun id t => Found disk s id t)
      (fun _ t => Names.Loads disk s.names t.names) := lookupFollow_spec
  refine ⟨fun c m hm => ?_, fun e m hm => hspec.error hm⟩
  have hfound := hspec.ok hm
  rw [wp_bind]
  refine (nodeAt_spec fun _ => hfound.loads).mono (fun node m' ⟨hm', hnode⟩ => ?_) fun _ _ h => h
  subst hm'
  rw [wp_bind, wp_ensure]
  refine ⟨fun hfile => ?_, fun _ => hfound.loads⟩
  rw [wp_bind]
  refine parentOf_spec.mono (fun r u hu => ?_) fun _ u hu => hfound.loads.trans hu
  dsimp only
  rw [wp_bind]
  refine insertChild_spec.mono (fun _ v ⟨entries, ino, hentries, hfree, hv⟩ => ?_) fun _ v hv => ?_
  · have hlt : c < m'.names.faces.length := by
      rw [length_names]
      exact (List.getElem?_eq_some_iff.1 hnode).1
    have hnotDir : ¬ u.names.IsDir c := by
      rw [hu.loads.isDir_iff hlt, ← fileType_iff (hfound.loads.sound hs) hnode]
      exact hfile
    refine wp_modify.2 ⟨c, m', u.names, hm, hfound, hlt, hu.loads, ?_⟩
    have hnames : v.names = u.names.setChildren r.1 (entries.insert r.2 c) := by
      rw [hv, names_adopt]
      rfl
    have hrelink : (v.modifyNode c fun node => { node with nlink := (node.nlink + 1) % 2 ^ 64 }).names =
        { v.names with faces := v.names.faces.modify c fun face => { face with nlink := (face.nlink + 1) % 2 ^ 64 } } :=
      names_modifyNode _ fun _ => rfl
    rw [hnames] at hrelink
    rw [hrelink]
    exact .mk hu.below hentries hfree (Nat.lt_of_lt_of_le hlt hu.loads.length_le) hnotDir
  · rw [hv]
    exact hfound.loads.trans hu.loads

theorem checkRemovable_spec {removeDir : Bool} (hs : s.names.Sound) (hbelow : s.names.Below rootId id) :
    wp (checkRemovable disk id removeDir) s
      (fun _ t => Names.Loads disk s.names t.names ∧ (t.names.children? id = none ∨ t.names.children? id = some ∅))
      (fun _ t => Names.Loads disk s.names t.names) := by
  unfold checkRemovable
  rw [wp_bind]
  refine (nodeAt_spec fun _ => .refl).mono (fun node t ⟨ht, hnode⟩ => ?_) fun _ _ h => h
  subst ht
  rw [wp_bind, wp_ensure]
  refine ⟨fun _ => ?_, fun _ => .refl⟩
  rw [wp_ite]
  refine ⟨fun _ => ?_, fun hfile => ?_⟩
  · rw [wp_bind, wp_ensure]
    refine ⟨fun _ => ?_, fun _ => .refl⟩
    exact (ensureEmptyDirectory_spec hbelow).mono (fun _ u ⟨hloads, hempty⟩ => ⟨hloads, .inr hempty⟩) fun _ _ h => h
  · rw [wp_ensure]
    refine ⟨fun _ => ⟨.refl, .inl ?_⟩, fun _ => .refl⟩
    rw [Names.children?_eq_none, ← fileType_iff hs hnode]
    exact hfile

theorem unlink_spec {removeDir : Bool} (hs : s.names.Sound) :
    wp (unlink disk path removeDir) s
      (fun _ t => ∃ u, Names.Loads disk s.names u ∧ Names.Unlinked u t.names)
      (fun _ t => Names.Loads disk s.names t.names) := by
  unfold unlink
  rw [wp_bind]
  refine parentOf_spec.mono (fun r t ht => ?_) fun _ _ h => h
  unfold removeChild
  dsimp only
  rw [wp_bind]
  refine (requireChild_spec ht.below).mono (fun c u ⟨hloads, hentry⟩ => ?_) fun _ u hu => ht.loads.trans hu
  have hall : Names.Loads disk s.names u.names := ht.loads.trans hloads
  have hbelow : u.names.Below rootId c := (hloads.below_mono ht.below).edge hentry
  rw [wp_bind]
  refine (checkRemovable_spec (hall.sound hs) hbelow).mono (fun _ v ⟨hv, hleaf⟩ => ?_) fun _ v hv => hall.trans hv
  rw [wp_bind]
  refine removeChildUnchecked_spec.mono (fun c' w ⟨entries, hentries, hc', hw⟩ => ?_) fun _ w hw => hw ▸ hall.trans hv
  have hsame : c' = c := by
    have hold := (Names.entry_iff hentries).1 (hv.entry_mono hentry)
    rw [hc'] at hold
    exact Option.some.inj hold
  subst hsame
  refine wp_modify.2 ⟨v.names, hall.trans hv, ?_⟩
  have hrelink : (w.modifyNode c' fun node => { node with nlink := (node.nlink + (2 ^ 64 - 1)) % 2 ^ 64 }).names =
      { w.names with faces := w.names.faces.modify c' fun face =>
        { face with nlink := (face.nlink + (2 ^ 64 - 1)) % 2 ^ 64 } } :=
    names_modifyNode _ fun _ => rfl
  rw [hw] at hrelink
  rw [hrelink]
  exact .mk hentries hc' hleaf

/-! ### Renaming -/

theorem renameLookup_spec :
    wp (renameLookup disk oldPath newPath) s
      (fun move t => Found disk s move.newParent t ∧ t.names.Entry move.oldParent move.oldName move.source)
      (fun _ t => Names.Loads disk s.names t.names) := by
  unfold renameLookup
  rw [wp_bind, wp_ofExcept]
  refine ⟨fun old _ => ?_, fun _ _ => .refl⟩
  dsimp only
  rw [wp_bind, wp_ofExcept]
  refine ⟨fun new _ => ?_, fun _ _ => .refl⟩
  rw [wp_bind, wp_ensure]
  refine ⟨fun _ => ?_, fun _ => .refl⟩
  rw [wp_bind]
  refine lookupFollow_spec.mono (fun p t ht => ?_) fun _ _ h => h
  rw [wp_bind]
  refine lookupFollow_spec.mono (fun q u hu => ?_) fun _ u hu => ht.loads.trans hu
  have hloads : Names.Loads disk s.names u.names := ht.loads.trans hu.loads
  rw [wp_bind]
  refine (ensureWritable_spec fun _ => hloads).mono (fun _ _ heq => ?_) fun _ _ h => h
  subst heq
  rw [wp_bind]
  refine (ensureWritable_spec fun _ => hloads).mono (fun _ _ heq => ?_) fun _ _ h => h
  subst heq
  rw [wp_bind]
  refine (requireChild_spec (hu.loads.below_mono ht.below)).mono (fun c v ⟨hv, hentry⟩ => ?_) fun _ v hv => hloads.trans hv
  rw [wp_bind]
  refine (ensureWritable_spec fun _ => hloads.trans hv).mono (fun _ _ heq => ?_) fun _ _ h => h
  subst heq
  exact wp_pure.2 ⟨⟨hloads.trans hv, hv.below_mono hu.below⟩, hentry⟩

theorem validateRenameTarget_spec {source : Node} {target : Option Nat} (hs : s.names.Sound)
    (hbelow : ∀ d, target = some d → s.names.Below rootId d) :
    wp (validateRenameTarget disk source target) s
      (fun _ t => Names.Loads disk s.names t.names ∧ (target = none → t.names = s.names) ∧
        ∀ d, target = some d → (t.names.children? d = none ∨ t.names.children? d = some ∅) ∧
          (source.fileType = .directory ↔ t.names.IsDir d))
      (fun _ t => Names.Loads disk s.names t.names) := by
  unfold validateRenameTarget
  split
  · exact wp_pure.2 ⟨.refl, fun _ => rfl, fun d hd => (nomatch hd)⟩
  · rename_i d
    rw [wp_bind]
    refine (nodeAt_spec fun _ => .refl).mono (fun node t ⟨ht, hnode⟩ => ?_) fun _ _ h => h
    subst ht
    rw [wp_ite, wp_ite, wp_ite]
    refine ⟨fun hsource => ⟨fun _ => ?_, fun _ => wp_throw.2 .refl⟩, fun hsource => ⟨fun _ => wp_throw.2 .refl,
      fun hfile => ?_⟩⟩
    · refine (ensureEmptyDirectory_spec (hbelow d rfl)).mono (fun _ u ⟨hloads, hempty⟩ =>
        ⟨hloads, fun h => (nomatch h), ?_⟩)
        fun _ _ h => h
      rintro d' ⟨⟩
      exact ⟨.inr hempty, fun _ => Names.isDir_of_children? hempty, fun _ => hsource⟩
    · refine wp_pure.2 ⟨.refl, fun _ => rfl, ?_⟩
      rintro d' ⟨⟩
      rw [fileType_iff hs hnode] at hfile
      exact ⟨.inl (Names.children?_eq_none.2 hfile), fun h => absurd h hsource, fun h => absurd h hfile⟩

namespace Names

variable {s t u : Names} {p q c : Nat} {n k : Name} {m m' : Entries Nat}

theorem entry_rename_inside (hm : s.children? p = some m) :
    (s.setChildren p (((m.erase n).erase k).insert k c)).Entry =
      NamedTree.add (NamedTree.cut (NamedTree.cut s.Entry p k) p n) p k c := by
  funext v l w
  refine propext ?_
  rw [NamedTree.add, NamedTree.cut, NamedTree.cut]
  have hchildren := children?_setChildren (m := ((m.erase n).erase k).insert k c) (q := v) (lt_of_children? hm)
  by_cases hv : v = p
  · subst hv
    rw [if_pos rfl] at hchildren
    rw [entry_iff hchildren, entry_iff hm, Entries.get_insert, Entries.get_erase, Entries.get_erase]
    by_cases hl : k = l
    · subst hl
      simp [eq_comm]
    · by_cases hl' : n = l
      · simp [hl, hl', Ne.symm hl]
      · simp [hl, hl', Ne.symm hl, Ne.symm hl']
  · rw [if_neg hv] at hchildren
    simp [entry_congr hchildren, hv]

/-- Moving an entry to another directory. -/
theorem entry_rename_across (hm : s.children? p = some m) (hm' : s.children? q = some m') (hne : p ≠ q) :
    ((s.setChildren p (m.erase n)).setChildren q (m'.insert k c)).Entry =
      NamedTree.add (NamedTree.cut (NamedTree.cut s.Entry q k) p n) q k c := by
  funext v l w
  refine propext ?_
  rw [NamedTree.add, NamedTree.cut, NamedTree.cut]
  have hq : (s.setChildren p (m.erase n)).children? q = some m' := by
    rw [children?_setChildren (lt_of_children? hm), if_neg hne.symm, hm']
  have hchildren := children?_setChildren (m := m'.insert k c) (q := v) (lt_of_children? hq)
  have hchildren' := children?_setChildren (m := m.erase n) (q := v) (lt_of_children? hm)
  by_cases hv : v = q
  · subst hv
    rw [if_pos rfl] at hchildren
    rw [entry_iff hchildren, entry_iff hm', Entries.get_insert]
    by_cases hl : k = l
    · subst hl
      simp [eq_comm]
    · simp [hl, Ne.symm hl, hne.symm]
  · rw [if_neg hv] at hchildren
    rw [entry_congr hchildren]
    by_cases hv' : v = p
    · subst hv'
      rw [if_pos rfl] at hchildren'
      rw [entry_iff hchildren', entry_iff hm, Entries.get_erase]
      by_cases hl : n = l
      · simp [hl, hv]
      · simp [hl, Ne.symm hl, hv]
    · rw [if_neg hv'] at hchildren'
      simp [entry_congr hchildren', hv, hv']

theorem Renamed.inside (hm : s.children? p = some m) (hc : s.Entry p n c) (hbelow : s.Below rootId p) (hne : n ≠ k)
    (htarget : ∀ d, s.Entry p k d → NamedTree.Leaf s.Entry d ∧ (s.IsDir c ↔ s.IsDir d)) :
    Renamed s p n p k c (s.setChildren p (((m.erase n).erase k).insert k c)) where
  source := hc
  below := hbelow
  isDir := isDir_of_children? hm
  distinct h := hne h.2
  target := htarget
  entry := entry_rename_inside hm
  face hf := face_setChildren hm hf _
  length := length_setChildren
  nextInode := rfl

theorem Renamed.across (hm : s.children? p = some m) (hm' : s.children? q = some m') (hpq : p ≠ q) (hc : s.Entry p n c)
    (hbelow : s.Below rootId q) (htarget : ∀ d, s.Entry q k d → NamedTree.Leaf s.Entry d ∧ (s.IsDir c ↔ s.IsDir d)) :
    Renamed s p n q k c ((s.setChildren p (m.erase n)).setChildren q (m'.insert k c)) where
  source := hc
  below := hbelow
  isDir := isDir_of_children? hm'
  distinct h := hpq h.1
  target := htarget
  entry := entry_rename_across hm hm' hpq
  face hf := by
    have hq : (s.setChildren p (m.erase n)).children? q = some m' := by
      rw [children?_setChildren (lt_of_children? hm), if_neg hpq.symm, hm']
    obtain ⟨f', hf', hsame⟩ := face_setChildren hm hf (m.erase n)
    obtain ⟨f'', hf'', hsame'⟩ := face_setChildren hq hf' (m'.insert k c)
    exact ⟨f'', hf'', hsame.trans hsame'⟩
  length := by rw [length_setChildren, length_setChildren]
  nextInode := rfl

end Names

structure Renaming (disk : Nat → Ext4FileSystem) (s : Heap) (oldPath newPath : Path) (t : Names) (move : Move) (m : Heap)
    (target : Option Nat) (m' : Heap) (u : Names) : Prop where
  lookup : renameLookup disk oldPath newPath s = .ok move m
  found : Found disk s move.newParent m
  lookupTarget : lookupChild disk move.newParent move.newName m = .ok target m'
  loads : Names.Loads disk m.names m'.names
  loads' : Names.Loads disk m'.names u
  replaced : ∀ d, u.Entry move.newParent move.newName d → target = some d
  outcome : move.oldParent = move.newParent ∧ move.oldName = move.newName ∧ t = u ∨
    Names.Renamed u move.oldParent move.oldName move.newParent move.newName move.source t

theorem rename_spec (hs : s.names.Sound) :
    wp (rename disk oldPath newPath) s
      (fun _ t => ∃ move m target m' u, Renaming disk s oldPath newPath t.names move m target m' u)
      (fun _ t => Names.Loads disk s.names t.names) := by
  have hlookup : wp (renameLookup disk oldPath newPath) s
      (fun move t => Found disk s move.newParent t ∧ t.names.Entry move.oldParent move.oldName move.source)
      (fun _ t => Names.Loads disk s.names t.names) := renameLookup_spec
  unfold rename
  rw [wp_bind, wp_iff]
  refine ⟨fun move m hm => ?_, fun e m hm => hlookup.error hm⟩
  obtain ⟨hfound, hsource⟩ := hlookup.ok hm
  rw [wp_bind]
  refine (nodeAt_spec fun _ => hfound.loads).mono (fun source m₁ ⟨heq, hnode⟩ => ?_) fun _ _ h => h
  subst heq
  rw [wp_bind, wp_ensure]
  refine ⟨fun _ => ?_, fun _ => hfound.loads⟩
  have hchild : wp (lookupChild disk move.newParent move.newName) m₁
      (fun r t => Names.Loads disk m₁.names t.names ∧ ∃ entries, t.names.children? move.newParent = some entries ∧
        r = entries[move.newName]?)
      (fun _ t => Names.Loads disk m₁.names t.names) := lookupChild_spec hfound.below
  rw [wp_bind, wp_iff]
  refine ⟨fun target m' hm' => ?_, fun e m' hm' => hfound.loads.trans (hchild.error hm')⟩
  obtain ⟨hloads, entries, hentries, htarget⟩ := hchild.ok hm'
  have hs₁ : m₁.names.Sound := hfound.loads.sound hs
  have hbelow' : m'.names.Below rootId move.newParent := hloads.below_mono hfound.below
  have hbelowTarget : ∀ d, target = some d → m'.names.Below rootId d := fun d hd =>
    hbelow'.edge ⟨entries, hentries, htarget ▸ hd⟩
  rw [wp_bind]
  refine (validateRenameTarget_spec (hloads.sound hs₁) hbelowTarget).mono (fun _ u ⟨hu, hnone, hsome⟩ => ?_)
    fun _ u hu => (hfound.loads.trans hloads).trans hu
  have hall : Names.Loads disk s.names u.names := (hfound.loads.trans hloads).trans hu
  have hsourceU : u.names.Entry move.oldParent move.oldName move.source := hu.entry_mono (hloads.entry_mono hsource)
  -- the directory that the entry goes to, and what it names there
  obtain ⟨entries', hentries'⟩ : ∃ entries', u.names.children? move.newParent = some entries' := by
    rw [← Names.isDir_iff, hu.isDir_iff (Names.lt_of_children? hentries)]
    exact Names.isDir_of_children? hentries
  have hslot : ∀ d, u.names.Entry move.newParent move.newName d → target = some d := by
    intro d hd
    cases htargetEq : target with
    | none =>
      rw [hnone htargetEq, Names.entry_iff hentries, ← htarget, htargetEq] at hd
      cases hd
    | some d' =>
      have hd' : u.names.Entry move.newParent move.newName d' := hu.entry_mono ⟨entries, hentries, htarget ▸ htargetEq⟩
      rw [hd'.child hd]
  have hkind : source.fileType = .directory ↔ u.names.IsDir move.source := by
    rw [fileType_iff hs₁ hnode, ← (hloads.trans hu).isDir_iff]
    rw [length_names]
    exact (List.getElem?_eq_some_iff.1 hnode).1
  have hreplace : ∀ d, u.names.Entry move.newParent move.newName d → NamedTree.Leaf u.names.Entry d ∧
      (u.names.IsDir move.source ↔ u.names.IsDir d) := by
    intro d hd
    obtain ⟨hleaf, hsame⟩ := hsome d (hslot d hd)
    exact ⟨Names.leaf_of_children hleaf, hkind.symm.trans hsame⟩
  rw [wp_bind]
  refine cloneComponent_spec.mono (fun stored v ⟨hstored, hname, _, hv⟩ => ?_) fun _ v hv => hv ▸ hall
  subst hstored
  rw [wp_ite]
  refine ⟨fun hparent => ?_, fun hparent => ?_⟩
  · refine renameInsideParent_spec.mono (fun _ w hw => ?_) fun _ w hw => by rw [hw, hv]; exact hall
    refine ⟨move, m₁, target, m', u.names, hm, hfound, hm', hloads, hu, hslot, ?_⟩
    rcases hw with ⟨hsame, hw⟩ | ⟨hne, old, c, hold, hc, hw⟩
    · exact .inl ⟨hparent, hsame, hw.trans hv⟩
    · rw [hv] at hold hw
      obtain rfl : c = move.source := Option.some.inj (hc.symm.trans ((Names.entry_iff hold).1 hsourceU))
      refine .inr ?_
      rw [hw]
      rw [← hparent] at hbelow' hreplace ⊢
      exact .inside hold hsourceU (hu.below_mono hbelow') hne hreplace
  · rw [wp_bind]
    refine reserveChildSlot_spec.mono (fun _ w ⟨hw, slot, hslotm, hreserved⟩ => ?_) fun _ w hw => by rw [hw, hv]; exact hall
    rw [hv, hentries'] at hslotm
    cases hslotm
    rw [wp_bind]
    refine removeChildUnchecked_spec.mono (fun c x ⟨old, hold, hc, hx⟩ => ?_) fun _ x hx => by rw [hx, hw, hv]; exact hall
    rw [hw, hv] at hold hx
    obtain rfl : c = move.source := Option.some.inj (hc.symm.trans ((Names.entry_iff hold).1 hsourceU))
    have hnew : x.names.children? move.newParent = some entries' := by
      rw [hx, Names.children?_setChildren (Names.lt_of_children? hold), if_neg (Ne.symm hparent), hentries']
    refine (insertChildPrepared_spec hname hnew hreserved).mono (fun _ y ⟨ino, hy⟩ => ?_) fun _ _ h => h.elim
    rw [names_adopt, hx] at hy
    refine ⟨move, m₁, target, m', u.names, hm, hfound, hm', hloads, hu, hslot, .inr ?_⟩
    rw [hy]
    exact .across hold hentries' hparent hsourceU (hu.below_mono hbelow') hreplace

end calls

end Vfs

end SudoOS
