import SudoOS.Kernel.Vfs
import SudoOS.Lib.NamedTree

/-! The namespace of the VFS: which entry of which directory names which node. -/

namespace SudoOS

namespace Vfs

open Ext4

namespace Entries

variable {α : Type} {m : Entries α} {n k : Name} {a : α}

theorem get_insert : (m.insert n a)[k]? = if n = k then some a else m[k]? := by
  simp [Std.ExtTreeMap.getElem?_insert]

theorem get_erase : (m.erase n)[k]? = if n = k then none else m[k]? := by
  simp [Std.ExtTreeMap.getElem?_erase]

end Entries

structure Face where
  ino : Nat
  nlink : Nat
  mode : Nat
  children : Option (Entries Nat)
  origin : Option (Nat × Nat)

def NodeState.children : NodeState → Option (Entries Nat)
  | .directory d => some d.children
  | _ => none

def Node.face (node : Node) : Face where
  ino := node.ino
  nlink := node.nlink
  mode := node.mode
  children := node.state.children
  origin := node.origin

structure Names where
  faces : List Face
  nextInode : Nat

def Heap.names (s : Heap) : Names := { faces := s.nodes.map Node.face, nextInode := s.nextInode }

namespace Names

variable {s t : Names} {p q c v w : Nat} {n : Name} {m : Entries Nat} {f : Face}

def children? (s : Names) (p : Nat) : Option (Entries Nat) := s.faces[p]?.bind Face.children

def Entry (s : Names) (p : Nat) (n : Name) (c : Nat) : Prop := ∃ m, s.children? p = some m ∧ m[n]? = some c

def IsDir (s : Names) (p : Nat) : Prop := (s.children? p).isSome

def Below (s : Names) : Nat → Nat → Prop := NamedTree.Below s.Entry

/-! ### Elementary edits -/

def push (s : Names) (f : Face) : Names := { s with faces := s.faces ++ [f] }

def setChildren (s : Names) (p : Nat) (m : Entries Nat) : Names :=
  { s with faces := s.faces.modify p fun f => { f with children := some m } }

def relink (s : Names) (c : Nat) (g : Nat → Nat) : Names :=
  { s with faces := s.faces.modify c fun f => { f with nlink := g f.nlink } }

def addFresh (s : Names) (p : Nat) (m : Entries Nat) (n : Name) (f : Face) : Names :=
  (s.push f).setChildren p (m.insert n s.faces.length)

theorem lt_of_children? (h : s.children? p = some m) : p < s.faces.length := by
  obtain ⟨f, hf, -⟩ := Option.bind_eq_some_iff.1 h
  exact (List.getElem?_eq_some_iff.1 hf).1

theorem isDir_iff : s.IsDir p ↔ ∃ m, s.children? p = some m := Option.isSome_iff_exists

theorem isDir_of_children? (h : s.children? p = some m) : s.IsDir p := isDir_iff.2 ⟨m, h⟩

theorem lt_of_isDir (h : s.IsDir p) : p < s.faces.length :=
  let ⟨_, hm⟩ := isDir_iff.1 h
  lt_of_children? hm

theorem Entry.isDir (h : s.Entry p n c) : s.IsDir p := isDir_of_children? h.choose_spec.1

theorem children?_push : (s.push f).children? q = if q = s.faces.length then f.children else s.children? q := by
  unfold children? push
  rcases Nat.lt_trichotomy q s.faces.length with hlt | rfl | hgt
  · rw [if_neg (Nat.ne_of_lt hlt), List.getElem?_append_left hlt]
  · rw [if_pos rfl, List.getElem?_concat_length]
    rfl
  · rw [if_neg (Nat.ne_of_gt hgt), List.getElem?_eq_none (Nat.le_of_lt hgt), List.getElem?_eq_none]
    rw [List.length_append]
    exact hgt

theorem children?_setChildren (hp : p < s.faces.length) :
    (s.setChildren p m).children? q = if q = p then some m else s.children? q := by
  unfold children? setChildren
  rw [List.getElem?_modify]
  by_cases heq : q = p
  · subst heq
    rw [if_pos rfl, List.getElem?_eq_getElem hp]
    simp only [Option.map_eq_map, Option.map_some, if_true, Option.bind_some]
  · have hne : ¬ p = q := fun h => heq h.symm
    simp only [if_neg heq, hne, if_false, id_map']

theorem children?_relink {g : Nat → Nat} : (s.relink c g).children? q = s.children? q := by
  unfold children? relink
  rw [List.getElem?_modify]
  cases s.faces[q]? with
  | none => rfl
  | some f =>
    simp only [Option.map_eq_map, Option.map_some, Option.bind_some]
    split <;> rfl

theorem length_setChildren : (s.setChildren p m).faces.length = s.faces.length := List.length_modify ..

theorem length_addFresh : (s.addFresh p m n f).faces.length = s.faces.length + 1 := by
  rw [addFresh, length_setChildren]
  exact List.length_append

theorem setChildren_self (h : s.children? p = some m) : s.setChildren p m = s := by
  obtain ⟨f, hf, hm⟩ := Option.bind_eq_some_iff.1 h
  have hsame : ({ f with children := some m } : Face) = f := by rw [← hm]
  have hfaces : (s.setChildren p m).faces = s.faces := by
    refine List.ext_getElem? fun q => ?_
    rw [setChildren, List.getElem?_modify]
    by_cases heq : p = q
    · subst heq
      rw [hf]
      simp only [Option.map_eq_map, Option.map_some, if_true, hsame]
    · simp only [heq, if_false, id_map']
  exact congrArg (fun faces => { s with faces }) hfaces

/-- Only the last change of the entries of a directory counts. -/
theorem setChildren_push_setChildren {m' : Entries Nat} :
    ((s.setChildren p m).push f).setChildren p m' = (s.push f).setChildren p m' := by
  unfold setChildren push
  congr 1
  refine List.ext_getElem? fun q => ?_
  rw [List.getElem?_modify, List.getElem?_modify, List.getElem?_append, List.getElem?_append, List.length_modify]
  by_cases hq : q < s.faces.length
  · rw [if_pos hq, if_pos hq, List.getElem?_modify]
    cases s.faces[q]? with
    | none => rfl
    | some g =>
      simp only [Option.map_eq_map, Option.map_some]
      split <;> rfl
  · rw [if_neg hq, if_neg hq]

structure Face.Same (f f' : Face) : Prop where
  ino : f'.ino = f.ino
  nlink : f'.nlink = f.nlink
  mode : f'.mode = f.mode
  origin : f'.origin = f.origin
  isSome : f'.children.isSome = f.children.isSome

theorem Face.Same.refl (f : Face) : Face.Same f f := ⟨rfl, rfl, rfl, rfl, rfl⟩

theorem Face.Same.trans {f f' f'' : Face} (h : Face.Same f f') (h' : Face.Same f' f'') : Face.Same f f'' :=
  ⟨h'.ino.trans h.ino, h'.nlink.trans h.nlink, h'.mode.trans h.mode, h'.origin.trans h.origin, h'.isSome.trans h.isSome⟩

theorem face_setChildren (hm : s.children? p = some m) (hf : s.faces[q]? = some f) (m' : Entries Nat) :
    ∃ f', (s.setChildren p m').faces[q]? = some f' ∧ Face.Same f f' := by
  rw [setChildren, List.getElem?_modify, hf]
  refine ⟨_, rfl, ?_⟩
  by_cases hp : p = q
  · subst hp
    obtain ⟨f₁, hf₁, hchildren⟩ := Option.bind_eq_some_iff.1 hm
    rw [hf] at hf₁
    cases hf₁
    simp only [if_true]
    exact ⟨rfl, rfl, rfl, rfl, by rw [hchildren]; rfl⟩
  · simp only [hp, if_false]
    exact .refl f

/-- The face that a node had, where each face has kept its place. -/
theorem face_before (hlength : t.faces.length = s.faces.length)
    (hface : ∀ {id : Nat} {f : Face}, s.faces[id]? = some f → ∃ f', t.faces[id]? = some f' ∧ Face.Same f f') {f' : Face}
    (hf' : t.faces[q]? = some f') : ∃ f, s.faces[q]? = some f ∧ Face.Same f f' := by
  have hlt := hlength ▸ (List.getElem?_eq_some_iff.1 hf').1
  obtain ⟨f'', hf'', hsame⟩ := hface (List.getElem?_eq_getElem hlt)
  rw [hf'] at hf''
  cases hf''
  exact ⟨_, List.getElem?_eq_getElem hlt, hsame⟩

theorem face_before_setChildren (hm : s.children? p = some m) {m' : Entries Nat} {f' : Face}
    (hf' : (s.setChildren p m').faces[q]? = some f') : ∃ f, s.faces[q]? = some f ∧ Face.Same f f' :=
  face_before length_setChildren (fun hf => face_setChildren hm hf _) hf'

/-! ### Edits and entries -/

theorem entry_iff (hm : s.children? p = some m) : s.Entry p n c ↔ m[n]? = some c := by
  rw [Entry, hm]
  exact ⟨fun ⟨_, heq, hc⟩ => Option.some.inj heq ▸ hc, fun hc => ⟨m, rfl, hc⟩⟩

theorem Entry.child {d : Nat} (h : s.Entry p n c) (h' : s.Entry p n d) : c = d := by
  obtain ⟨m, hm, hc⟩ := h
  rw [entry_iff hm, hc] at h'
  exact Option.some.inj h'

theorem entry_congr (h : t.children? p = s.children? p) : t.Entry p n c ↔ s.Entry p n c := by rw [Entry, h, Entry]

theorem entry_setChildren_insert (hm : s.children? p = some m) (hfree : m[n]? = none) :
    (s.setChildren p (m.insert n c)).Entry = NamedTree.add s.Entry p n c := by
  funext q k d
  refine propext ?_
  rw [NamedTree.add]
  have hchildren := children?_setChildren (m := m.insert n c) (q := q) (lt_of_children? hm)
  by_cases hq : q = p
  · subst hq
    rw [if_pos rfl] at hchildren
    rw [entry_iff hchildren, entry_iff hm, Entries.get_insert]
    by_cases hk : n = k
    · subst hk
      simp [hfree, eq_comm]
    · simp [hk, Ne.symm hk]
  · rw [if_neg hq] at hchildren
    simp [entry_congr hchildren, hq]

theorem entry_setChildren_erase (hm : s.children? p = some m) :
    (s.setChildren p (m.erase n)).Entry = NamedTree.cut s.Entry p n := by
  funext q k d
  refine propext ?_
  rw [NamedTree.cut]
  have hchildren := children?_setChildren (m := m.erase n) (q := q) (lt_of_children? hm)
  by_cases hq : q = p
  · subst hq
    rw [if_pos rfl] at hchildren
    rw [entry_iff hchildren, entry_iff hm, Entries.get_erase]
    by_cases hk : n = k
    · simp [hk]
    · simp [hk, Ne.symm hk]
  · rw [if_neg hq] at hchildren
    simp [entry_congr hchildren, hq]

theorem entry_relink {g : Nat → Nat} : (s.relink c g).Entry = s.Entry := by
  funext q l d
  exact propext (entry_congr children?_relink)

def Face.Leaf (f : Face) : Prop := f.children = none ∨ f.children = some ∅

theorem entry_push (hf : Face.Leaf f) : (s.push f).Entry = s.Entry := by
  funext q k d
  refine propext ?_
  have hchildren := children?_push (s := s) (f := f) (q := q)
  by_cases hq : q = s.faces.length
  · subst hq
    have hnone : s.children? s.faces.length = none := by
      rw [children?, List.getElem?_eq_none (Nat.le_refl _), Option.bind_none]
    rw [if_pos rfl] at hchildren
    refine ⟨fun ⟨m, hm, hd⟩ => ?_, fun ⟨m, hm, _⟩ => ?_⟩
    · rcases hf with hf | hf
      · rw [hchildren, hf] at hm
        cases hm
      · rw [hchildren, hf] at hm
        cases hm
        rw [Std.ExtTreeMap.getElem?_empty] at hd
        cases hd
    · rw [hnone] at hm
      cases hm
  · rw [if_neg hq] at hchildren
    exact entry_congr hchildren

theorem children?_push_of_some (hm : s.children? p = some m) : (s.push f).children? p = some m := by
  rw [children?_push, if_neg (Nat.ne_of_lt (lt_of_children? hm)), hm]

theorem entry_addFresh (hm : s.children? p = some m) (hfree : m[n]? = none) (hf : Face.Leaf f) :
    (s.addFresh p m n f).Entry = NamedTree.add s.Entry p n s.faces.length := by
  rw [addFresh, entry_setChildren_insert (children?_push_of_some hm) hfree, entry_push hf]

theorem face_before_addFresh (hm : s.children? p = some m) {f' : Face} (hf' : (s.addFresh p m n f).faces[c]? = some f') :
    (c < s.faces.length ∧ ∃ f₀, s.faces[c]? = some f₀ ∧ Face.Same f₀ f') ∨ c = s.faces.length ∧ Face.Same f f' := by
  obtain ⟨f₀, hf₀, hsame⟩ := face_before_setChildren (children?_push_of_some hm) hf'
  rcases Nat.lt_trichotomy c s.faces.length with hlt | rfl | hgt
  · rw [push, List.getElem?_append_left hlt] at hf₀
    exact .inl ⟨hlt, f₀, hf₀, hsame⟩
  · rw [push, List.getElem?_concat_length] at hf₀
    cases hf₀
    exact .inr ⟨rfl, hsame⟩
  · rw [push, List.getElem?_eq_none] at hf₀
    · cases hf₀
    · rw [List.length_append]
      exact hgt

/-! ### Well-formed namespaces -/

def Face.Coherent (f : Face) : Prop := FileType.ofMode f.mode = .directory ↔ f.children.isSome

def Coherent (s : Names) : Prop := ∀ f ∈ s.faces, Face.Coherent f

structure Sound (s : Names) : Prop where
  inRange : ∀ {p n c}, s.Entry p n c → c < s.faces.length
  coherent : s.Coherent

structure Wf (s : Names) : Prop extends s.Sound where
  tree : NamedTree.IsTree s.Entry s.IsDir rootId
  root_dir : s.IsDir rootId

theorem Sound.not_entry_length (h : s.Sound) : ¬ s.Entry p n s.faces.length :=
  fun hentry => Nat.lt_irrefl _ (h.inRange hentry)

theorem leaf_length : NamedTree.Leaf s.Entry s.faces.length := by
  rintro n c ⟨m, hm, -⟩
  exact Nat.lt_irrefl _ (lt_of_children? hm)

theorem isDir_setChildren (hm : s.children? p = some m) {m' : Entries Nat} : (s.setChildren p m').IsDir q ↔ s.IsDir q := by
  unfold IsDir
  rw [children?_setChildren (lt_of_children? hm)]
  by_cases hq : q = p
  · rw [if_pos hq, hq, hm]
    rfl
  · rw [if_neg hq]

theorem isDir_push (hq : q ≠ s.faces.length) : (s.push f).IsDir q ↔ s.IsDir q := by
  unfold IsDir
  rw [children?_push, if_neg hq]

theorem Face.Same.coherent {f f' : Face} (h : Face.Same f f') (hf : Face.Coherent f) : Face.Coherent f' := by
  rw [Face.Coherent, h.mode, h.isSome]
  exact hf

theorem Coherent.setChildren (h : s.Coherent) (hm : s.children? p = some m) {m' : Entries Nat} :
    (s.setChildren p m').Coherent := by
  intro f' hf'
  obtain ⟨q, hq⟩ := List.mem_iff_getElem?.1 hf'
  obtain ⟨f, hf, hsame⟩ := face_before_setChildren hm hq
  exact hsame.coherent (h f (List.mem_iff_getElem?.2 ⟨q, hf⟩))

theorem Coherent.push (h : s.Coherent) (hf : Face.Coherent f) : (s.push f).Coherent := by
  intro f' hf'
  rcases List.mem_append.1 hf' with hf' | hf'
  · exact h f' hf'
  · exact List.mem_singleton.1 hf' ▸ hf

theorem Sound.lt (h : s.Sound) (hm : s.children? p = some m) (hc : m[n]? = some c) : c < s.faces.length :=
  h.inRange ⟨m, hm, hc⟩

theorem Sound.setChildren (h : s.Sound) (hm : s.children? p = some m) {m' : Entries Nat}
    (hnew : ∀ {n : Name} {c : Nat}, m'[n]? = some c → c < s.faces.length) : (s.setChildren p m').Sound where
  inRange {q k c} hentry := by
    rw [length_setChildren]
    have hchildren := children?_setChildren (m := m') (q := q) (lt_of_children? hm)
    by_cases hq : q = p
    · rw [if_pos hq] at hchildren
      exact hnew ((entry_iff hchildren).1 hentry)
    · rw [if_neg hq] at hchildren
      exact h.inRange ((entry_congr hchildren).1 hentry)
  coherent := h.coherent.setChildren hm

theorem Sound.insert (h : s.Sound) (hm : s.children? p = some m) (hc : c < s.faces.length) :
    (s.setChildren p (m.insert n c)).Sound := by
  refine h.setChildren hm fun {k d} hd => ?_
  rw [Entries.get_insert] at hd
  split at hd
  · cases hd
    exact hc
  · exact h.lt hm hd

theorem Sound.erase (h : s.Sound) (hm : s.children? p = some m) : (s.setChildren p (m.erase n)).Sound := by
  refine h.setChildren hm fun {k d} hd => ?_
  rw [Entries.get_erase] at hd
  split at hd
  · cases hd
  · exact h.lt hm hd

theorem Wf.setChildren (h : s.Wf) (hm : s.children? p = some m) {m' : Entries Nat} (hs : (s.setChildren p m').Sound)
    (htree : NamedTree.IsTree (s.setChildren p m').Entry s.IsDir rootId) : (s.setChildren p m').Wf where
  toSound := hs
  tree := htree.congr_inner (fun hentry => hentry.isDir) fun _ hdir => (isDir_setChildren hm).1 hdir
  root_dir := (isDir_setChildren hm).2 h.root_dir

structure Face.Fresh (f : Face) : Prop where
  leaf : Face.Leaf f
  coherent : Face.Coherent f
  nlink : f.nlink = 1

theorem Sound.push (h : s.Sound) (hf : Face.Fresh f) : (s.push f).Sound where
  inRange hentry := by
    rw [entry_push hf.leaf] at hentry
    exact Nat.lt_of_lt_of_le (h.inRange hentry) (by rw [Names.push, List.length_append]; exact Nat.le_add_right _ _)
  coherent := h.coherent.push hf.coherent

theorem Sound.addFresh (h : s.Sound) (hm : s.children? p = some m) (hf : Face.Fresh f) : (s.addFresh p m n f).Sound := by
  refine (h.push hf).insert (children?_push_of_some hm) ?_
  rw [Names.push, List.length_append]
  exact Nat.lt_succ_self _

theorem Wf.push (h : s.Wf) (hf : Face.Fresh f) : (s.push f).Wf where
  toSound := h.toSound.push hf
  tree := by
    rw [entry_push hf.leaf]
    refine h.tree.congr_inner (fun hentry => ?_) fun hentry hdir => ?_
    · exact (isDir_push (Nat.ne_of_lt (lt_of_children? hentry.choose_spec.1))).2 hentry.isDir
    · exact (isDir_push (Nat.ne_of_lt (h.inRange hentry))).1 hdir
  root_dir := by
    obtain ⟨m, hm⟩ := isDir_iff.1 h.root_dir
    exact isDir_of_children? (children?_push_of_some hm)

theorem Wf.root_lt (h : s.Wf) : rootId < s.faces.length := lt_of_isDir h.root_dir

theorem Wf.addFresh (h : s.Wf) (hbelow : s.Below rootId p) (hm : s.children? p = some m) (hfree : m[n]? = none)
    (hf : Face.Fresh f) : (s.addFresh p m n f).Wf := by
  have hwf := h.push hf
  have hm' := children?_push_of_some (f := f) hm
  refine hwf.setChildren hm' (h.toSound.addFresh hm hf) ?_
  rw [entry_setChildren_insert hm' hfree]
  refine hwf.tree.add ?_ (isDir_of_children? hm') ?_ (Nat.ne_of_gt h.root_lt) ?_
  · rw [entry_push hf.leaf]
    exact hbelow
  · intro d hd
    rw [entry_iff hm', hfree] at hd
    cases hd
  · intro _ q k hnamed
    rw [entry_push hf.leaf] at hnamed
    exact h.not_entry_length hnamed

/-! ### Loading entries from volumes -/

def OnVolume (fs : Ext4FileSystem) (ino : Nat) : Prop :=
  (∃ parent name info, fs.lookupChildInfo parent name = .ok info ∧ info.ino = ino) ∨
    ∃ parent entries, fs.listDirectoryInfo parent = .ok entries ∧ ∃ entry ∈ entries, entry.2.ino = ino

inductive Load (disk : Nat → Ext4FileSystem) (s : Names) : Names → Prop
  | entry {p : Nat} {m : Entries Nat} {n : Name} {f : Face} {fs : Nat} (hbelow : s.Below rootId p)
      (hm : s.children? p = some m) (hfree : m[n]? = none) (hfresh : Face.Fresh f) (horigin : f.origin = some (fs, f.ino))
      (hdisk : OnVolume (disk fs) f.ino) : Load disk s (s.addFresh p m n f)

def Loads (disk : Nat → Ext4FileSystem) : Names → Names → Prop := Relation.ReflTransGen (Load disk)

section loads
variable {disk : Nat → Ext4FileSystem}

theorem Loads.trans {u : Names} (h : Loads disk s t) (h' : Loads disk t u) : Loads disk s u :=
  Relation.ReflTransGen.trans h h'

theorem Loads.invariant {I : Names → Prop} (h : Loads disk s t) (hs : I s) (hstep : ∀ s t, I s → Load disk s t → I t) :
    I t := by
  induction h with
  | refl => exact hs
  | tail _ hload ih => exact hstep _ _ ih hload

theorem Load.wf (h : Load disk s t) (hwf : s.Wf) : t.Wf := by
  cases h with
  | entry hbelow hm hfree hfresh => exact hwf.addFresh hbelow hm hfree hfresh

theorem Loads.wf (h : Loads disk s t) (hwf : s.Wf) : t.Wf := h.invariant hwf fun _ _ hwf hload => hload.wf hwf

theorem Load.sound (h : Load disk s t) (hs : s.Sound) : t.Sound := by
  cases h with
  | entry hbelow hm hfree hfresh => exact hs.addFresh hm hfresh

theorem Loads.sound (h : Loads disk s t) (hs : s.Sound) : t.Sound := h.invariant hs fun _ _ hs hload => hload.sound hs

theorem Load.entry_mono (h : Load disk s t) (hentry : s.Entry q n c) : t.Entry q n c := by
  cases h with
  | entry hbelow hm hfree hfresh =>
    rw [entry_addFresh hm hfree hfresh.leaf]
    exact .inl hentry

theorem Loads.entry_mono (h : Loads disk s t) (hentry : s.Entry q n c) : t.Entry q n c :=
  h.invariant (I := fun t => t.Entry q n c) hentry fun _ _ hentry hload => hload.entry_mono hentry

theorem Loads.below_mono (h : Loads disk s t) (hbelow : s.Below v w) : t.Below v w :=
  NamedTree.Below.mono hbelow h.entry_mono

theorem Load.length (h : Load disk s t) : t.faces.length = s.faces.length + 1 := by
  cases h with
  | entry => exact length_addFresh

theorem Loads.length_le (h : Loads disk s t) : s.faces.length ≤ t.faces.length :=
  h.invariant (I := fun t => s.faces.length ≤ t.faces.length) (Nat.le_refl _) fun _ _ hle hload =>
    Nat.le_trans hle (hload.length ▸ Nat.le_succ _)

theorem Load.nextInode (h : Load disk s t) : t.nextInode = s.nextInode := by
  cases h with
  | entry => rfl

theorem Loads.nextInode (h : Loads disk s t) : t.nextInode = s.nextInode :=
  h.invariant (I := fun t => t.nextInode = s.nextInode) rfl fun _ _ heq hload => hload.nextInode.trans heq

/-- Of a node that was there, loading changes at most the entries. -/
theorem Load.face (h : Load disk s t) (hf : s.faces[q]? = some f) : ∃ f', t.faces[q]? = some f' ∧ Face.Same f f' := by
  cases h with
  | entry hbelow hm =>
    have hlt := (List.getElem?_eq_some_iff.1 hf).1
    exact face_setChildren (children?_push_of_some hm) (by rw [push, List.getElem?_append_left hlt, hf]) _

theorem Loads.face (h : Loads disk s t) (hf : s.faces[q]? = some f) : ∃ f', t.faces[q]? = some f' ∧ Face.Same f f' := by
  refine h.invariant (I := fun t => ∃ f', t.faces[q]? = some f' ∧ Face.Same f f') ⟨f, hf, .refl f⟩
    fun u u' ⟨f', hf', hsame⟩ hload => ?_
  obtain ⟨f'', hf'', hsame'⟩ := hload.face hf'
  exact ⟨f'', hf'', hsame.trans hsame'⟩

/-- Loading puts nothing new between nodes that were there. -/
theorem Loads.below_of (h : Loads disk s t) (hw : w < s.faces.length) (hbelow : t.Below v w) : s.Below v w := by
  induction h with
  | refl => exact hbelow
  | @tail u u' hloads hload ih =>
    refine ih ?_
    cases hload with
    | entry _ hm hfree hfresh =>
      rw [Below, entry_addFresh hm hfree hfresh.leaf] at hbelow
      exact hbelow.of_add leaf_length (Nat.ne_of_lt (Nat.lt_of_lt_of_le hw (Loads.length_le hloads)))

end loads

end Names

end Vfs

end SudoOS
