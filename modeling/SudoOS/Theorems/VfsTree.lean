import SudoOS.Theorems.VfsSystem

/-! The directory namespace as a tree. -/

namespace SudoOS

namespace Vfs

open Ext4 Program

variable {disk : Nat → Ext4FileSystem} {s t : Heap}

/-! ### Edits keep the tree -/

namespace Names

variable {disk : Nat → Ext4FileSystem} {s t : Names} {p q c v : Nat} {n k : Name} {m : Entries Nat}

theorem Wf.bump (h : s.Wf) : s.bump.Wf := ⟨h.toSound.bump, h.tree, h.root_dir⟩

theorem Made.wf (h : Made s t) (hwf : s.Wf) : t.Wf := by
  cases h with
  | mk hbelow hm hfree hfresh => exact hwf.bump.addFresh hbelow hm hfree hfresh

theorem Wf.relink (h : s.Wf) {g : Nat → Nat} : (s.relink c g).Wf where
  toSound := h.toSound.relink
  tree := by
    have hdir : (s.relink c g).IsDir = s.IsDir := by
      funext q
      rw [IsDir, children?_relink, IsDir]
    rw [entry_relink, hdir]
    exact h.tree
  root_dir := by
    rw [IsDir, children?_relink]
    exact h.root_dir

theorem Linked.wf (h : Linked s c t) (hwf : s.Wf) : t.Wf := by
  cases h with
  | mk hbelow hm hfree hlt hfile =>
    refine (hwf.setChildren hm (hwf.toSound.insert hm hlt) ?_).relink
    rw [entry_setChildren_insert hm hfree]
    refine hwf.tree.add hbelow (isDir_of_children? hm) (fun d hd => ?_) (fun heq => ?_) fun hdir => absurd hdir hfile
    · rw [entry_iff hm, hfree] at hd
      cases hd
    · exact hfile (heq ▸ hwf.root_dir)

theorem Unlinked.wf (h : Unlinked s t) (hwf : s.Wf) : t.Wf := by
  cases h with
  | mk hm hc hleaf =>
    refine (hwf.setChildren hm (hwf.toSound.erase hm) ?_).relink
    rw [entry_setChildren_erase hm]
    exact hwf.tree.cut ((entry_iff hm).2 hc) (leaf_of_children hleaf)

theorem not_below_of_file (hfile : ¬ s.IsDir c) (hq : s.IsDir q) : ¬ s.Below c q := by
  intro hbelow
  have heq := NamedTree.Leaf.below (leaf_of_children (.inl (children?_eq_none.2 hfile))) hbelow
  exact hfile (heq ▸ hq)

/-- The slot that a renamed node goes to is emptied first, which takes a leaf off the tree. -/
theorem Renamed.tree_cut (h : Renamed s p n q k c t) (hwf : s.Wf) :
    NamedTree.IsTree (NamedTree.cut s.Entry q k) s.IsDir rootId ∧ NamedTree.Below (NamedTree.cut s.Entry q k) rootId q := by
  by_cases htarget : ∃ d, s.Entry q k d
  · obtain ⟨d, hd⟩ := htarget
    have hleaf := (h.target d hd).1
    refine ⟨hwf.tree.cut hd hleaf, hwf.tree.below_cut hd (fun hbelow => ?_) h.below⟩
    exact hleaf k d (hleaf.below hbelow ▸ hd)
  · have hsame : NamedTree.cut s.Entry q k = s.Entry := by
      funext v l w
      refine propext ⟨fun hentry => hentry.1, fun hentry => ⟨hentry, ?_⟩⟩
      rintro ⟨rfl, rfl⟩
      exact htarget ⟨w, hentry⟩
    rw [hsame]
    exact ⟨hwf.tree, h.below⟩

theorem Renamed.wf (h : Renamed s p n q k c t) (hwf : s.Wf) (hout : s.IsDir c → ¬ s.Below c q) : t.Wf where
  toSound := h.sound hwf.toSound
  tree := by
    obtain ⟨htree, hbelow⟩ := h.tree_cut hwf
    have hnot : ¬ s.Below c q := by
      by_cases hc : s.IsDir c
      · exact hout hc
      · exact not_below_of_file hc h.isDir
    have hmoved := htree.move (m := k) ⟨h.source, h.distinct⟩ hbelow h.isDir (fun d hd => hd.2 ⟨rfl, rfl⟩)
      fun hb => hnot (hb.mono fun hentry => hentry.1)
    rw [h.entry]
    refine hmoved.congr_inner (fun hentry => h.isDir_iff.2 (hmoved.inner_of_edge hentry)) fun _ hdir => h.isDir_iff.1 hdir
  root_dir := h.isDir_iff.2 hwf.root_dir

theorem lt_of_below {w : Nat} (hw : w < s.faces.length) (h : s.Below v w) : v < s.faces.length := by
  rcases Relation.ReflTransGen.cases_head h with rfl | ⟨x, ⟨n, m, hm, -⟩, -⟩
  · exact hw
  · exact lt_of_children? hm

theorem Fizzled.wf (h : Fizzled disk s t) (hwf : s.Wf) : t.Wf := by
  obtain ⟨u, hloads, rfl | rfl⟩ := h
  · exact hloads.wf hwf
  · exact (hloads.wf hwf).bump

end Names

/-! ### Runs -/

def Op.Outside (disk : Nat → Ext4FileSystem) (s : Heap) : Op → Prop
  | .rename oldPath newPath => ∀ move m, renameLookup disk oldPath newPath s = .ok move m → m.names.IsDir move.source →
      ¬ m.names.Below move.source move.newParent
  | .mount _ path => ∀ id m, lookup disk path s = .ok id m → m.names.children? id = some ∅
  | _ => True

/-- The directory that the new name goes to was there when the paths were looked up, so what is loaded later puts nothing
above it. -/
theorem Renaming.wf {oldPath newPath : Path} {t : Names} {move : Move} {m m' : Heap} {target : Option Nat} {u : Names}
    (h : Renaming disk s oldPath newPath t move m target m' u) (hwf : s.names.Wf)
    (hout : Op.Outside disk s (.rename oldPath newPath)) : t.Wf := by
  have hwfm : m.names.Wf := h.found.loads.wf hwf
  have hloads : Names.Loads disk m.names u := h.loads.trans h.loads'
  rcases h.outcome with ⟨-, -, rfl⟩ | hrenamed
  · exact hloads.wf hwfm
  · refine hrenamed.wf (hloads.wf hwfm) fun hdir hbelow => ?_
    have hparent : move.newParent < m.names.faces.length := Names.below_lt hwfm hwfm.root_lt h.found.below
    have hbelow' := hloads.below_of hparent hbelow
    have hsource : move.source < m.names.faces.length := Names.lt_of_below hparent hbelow'
    exact hout move m h.lookup ((hloads.isDir_iff hsource).1 hdir) hbelow'

theorem Stepped.wf {op : Op} {t : Names} (h : Stepped disk s op t) (hwf : s.names.Wf) (hout : op.Outside disk s) :
    t.Wf := by
  cases h with
  | fizzled h => exact h.wf hwf
  | created h =>
    obtain ⟨u, hloads, hmade⟩ := h
    exact hmade.wf (hloads.wf hwf)
  | linked _ hfound _ hloads h => exact h.wf (hloads.wf (hfound.loads.wf hwf))
  | unlinked hloads h => exact h.wf (hloads.wf hwf)
  | renamed h => exact h.wf hwf hout
  | mounted hlookup hfound =>
    rw [Names.setChildren_self (hout _ _ hlookup)]
    exact hfound.loads.wf hwf

theorem wf_emptyRoot : emptyRoot.names.Wf := by
  exact ⟨sound_emptyRoot,
    ⟨fun h => absurd h not_entry_emptyRoot, fun h => absurd h not_entry_emptyRoot, fun _ h => absurd h not_entry_emptyRoot,
      not_entry_emptyRoot, fun h => absurd h not_entry_emptyRoot⟩, rfl⟩

/-- The runs in which directories stay outside themselves. -/
def keepingOutside (disk : Nat → Ext4FileSystem) : TransitionSystem Heap (Op × Memory) :=
  (system disk).restrict fun s a => a.1.Outside disk { s with memory := a.2 }

theorem wf_of_reachable (h : (keepingOutside disk).Reachable s) : s.names.Wf := by
  refine h.invariant (I := fun s => s.names.Wf) (fun s ⟨_, hboot⟩ => ?_) fun s a t hwf ⟨hstep, hout⟩ => ?_
  · exact (boot_spec hboot).invariant wf_emptyRoot fun _ _ hwf hmade => hmade.wf hwf
  · have hstepped : Stepped disk { s with memory := a.2 } a.1 t.names := hstep ▸ Op.stepped hwf.toSound
    exact hstepped.wf hwf hout

structure Names.DirectoryTree (s : Names) : Prop where
  named : ∀ {d : Nat}, s.IsDir d → d ≠ rootId → (∃ p n, s.Entry p n d) ∨ (∃ n c, s.Entry d n c) →
    ∃ p n, s.Entry p n d ∧ s.Below rootId p ∧ ∀ q k, s.Entry q k d → q = p ∧ k = n
  acyclic : ∀ {d : Nat}, ¬ Relation.TransGen (NamedTree.Edge s.Entry) d d

theorem Names.Wf.directoryTree {s : Names} (h : s.Wf) : s.DirectoryTree where
  named {d} hdir hroot hlive := by
    have hnamed : ∃ p n, s.Entry p n d := by
      rcases hlive with hnamed | ⟨n, c, hentry⟩
      · exact hnamed
      · rcases Relation.ReflTransGen.cases_tail (h.tree.reached hentry) with heq | ⟨p, -, n, hentry⟩
        · exact absurd heq hroot
        · exact ⟨p, n, hentry⟩
    obtain ⟨p, n, hentry⟩ := hnamed
    exact ⟨p, n, hentry, h.tree.reached hentry, fun q k hother => h.tree.unique hdir hother hentry⟩
  acyclic := h.tree.acyclic

/-- Whatever paths the calls are given, the directories form a tree at every moment. -/
theorem directoryTree_of_reachable (h : (keepingOutside disk).Reachable s) : s.names.DirectoryTree :=
  (wf_of_reachable h).directoryTree

/-- `/a` is renamed to `/b`, after it was made. -/
theorem directoryTree_after_rename : ∃ s, (keepingOutside noVolumes).Reachable s ∧
    s.names.child? rootId (str "b") = some 10 ∧ s.names.DirectoryTree := by
  have hmade : (playFromBoot noVolumes [(.mkdir (str "/a") 0o755, [])]).any (fun s =>
      (match renameLookup noVolumes (str "/a") (str "/b") { s with memory := [] } with
        | .ok move m => (m.names.children? move.source).any Std.ExtTreeMap.isEmpty && move.newParent != move.source
        | .error _ _ => false) &&
      (Op.apply noVolumes (.rename (str "/a") (str "/b")) [] s).names.child? rootId (str "b") == some 10) = true := by
    decide +kernel
  obtain ⟨s, hs, hcheck⟩ := (Option.any_eq_true _ _).1 hmade
  obtain ⟨t, hboot, hplay⟩ := Option.bind_eq_some_iff.1 hs
  obtain ⟨hlookup, hnamed⟩ := Bool.and_eq_true_iff.1 hcheck
  have hs : (keepingOutside noVolumes).Reachable s := by
    refine .step (a := (.mkdir (str "/a") 0o755, [])) (.init ⟨[], hboot⟩) ⟨?_, trivial⟩
    exact (Option.some.inj hplay).symm
  have ht : (keepingOutside noVolumes).Reachable (Op.apply noVolumes (.rename (str "/a") (str "/b")) [] s) := by
    refine .step (a := (.rename (str "/a") (str "/b"), [])) hs ⟨rfl, fun move m hm _ hbelow => ?_⟩
    rw [hm] at hlookup
    obtain ⟨hempty, hne⟩ := Bool.and_eq_true_iff.1 hlookup
    obtain ⟨entries, hentries, hempty⟩ := (Option.any_eq_true _ _).1 hempty
    rw [Std.ExtTreeMap.isEmpty_iff] at hempty
    subst hempty
    have hleaf := NamedTree.Leaf.below (Names.leaf_of_children (.inr hentries)) hbelow
    exact absurd hleaf (bne_iff_ne.1 hne)
  exact ⟨_, ht, beq_iff_eq.1 hnamed, directoryTree_of_reachable ht⟩

def renameBelowItself : List (Op × Memory) :=
  [(.mkdir (str "/a") 0o755, []), (.mkdir (str "/a/b") 0o755, []), (.symlink (str "/a") (str "/s"), []),
    (.rename (str "/a") (str "/s/b/a"), [])]

theorem directory_becomes_own_ancestor : ∃ s, (system noVolumes).Reachable s ∧ ¬ s.names.DirectoryTree := by
  have hplay : (playFromBoot noVolumes renameBelowItself).any (fun s =>
      s.names.child? 10 (str "b") = some 11 ∧ s.names.child? 11 (str "a") = some 10) = true := by decide +kernel
  obtain ⟨s, hs, hcycle⟩ := (Option.any_eq_true _ _).1 hplay
  obtain ⟨hdown, hup⟩ := of_decide_eq_true hcycle
  refine ⟨s, reachable_of_play hs, fun htree => htree.acyclic (d := 10) ?_⟩
  exact .tail (.single ⟨_, Names.entry_of_child? hdown⟩) ⟨_, Names.entry_of_child? hup⟩

end Vfs

end SudoOS
