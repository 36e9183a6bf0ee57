import SudoOS.Theorems.VfsSystem

/-! Link counts. -/

namespace SudoOS

namespace Vfs

open Ext4 Program

variable {disk : Nat → Ext4FileSystem} {s t : Heap}

namespace Names

variable {s t u : Names} {p q c v : Nat} {n k : Name} {m : Entries Nat} {f : Face}

def named (s : Names) (c : Nat) : Set (Nat × Name) := {e | s.Entry e.1 e.2 c}

theorem mem_named {e : Nat × Name} : e ∈ s.named c ↔ s.Entry e.1 e.2 c := Iff.rfl

structure Counts (s : Names) (c nlink : Nat) : Prop where
  exact : (nlink : ℕ∞) = (s.named c).encard
  fits : nlink < 2 ^ 32

def Counted (s : Names) : Prop := ∀ c f, s.faces[c]? = some f → f.children = none → s.Counts c f.nlink

theorem Face.Same.children_none {f f' : Face} (h : Face.Same f f') (hf' : f'.children = none) : f.children = none := by
  have hnone := h.isSome
  rw [hf'] at hnone
  exact Option.isNone_iff_eq_none.1 (Option.isSome_eq_false_iff.1 hnone.symm)

theorem Counts.congr {nlink : Nat} (h : s.Counts c nlink) (hentry : ∀ {p n}, t.Entry p n c ↔ s.Entry p n c) :
    t.Counts c nlink := by
  have hnamed : t.named c = s.named c := Set.ext fun _ => hentry
  exact ⟨hnamed ▸ h.exact, h.fits⟩

theorem Counted.of_same (h : s.Counted) {f f' : Face} (hf : s.faces[c]? = some f) (hsame : Face.Same f f')
    (hnone : f'.children = none) : s.Counts c f'.nlink :=
  hsame.nlink ▸ h _ _ hf (hsame.children_none hnone)

/-! ### A new node -/

theorem Counted.addFresh (h : s.Counted) (hs : s.Sound) (hm : s.children? p = some m) (hfree : m[n]? = none)
    (hf : Face.Fresh f) : (s.addFresh p m n f).Counted := by
  intro c f' hf' hnone
  have hentry := entry_addFresh hm hfree hf.leaf
  rcases face_before_addFresh hm hf' with ⟨hlt, f₀, hf₀, hsame⟩ | ⟨rfl, hsame⟩
  · refine (h.of_same hf₀ hsame hnone).congr fun {q k} => ?_
    rw [hentry, NamedTree.add]
    exact or_iff_left fun hnew => Nat.ne_of_lt hlt hnew.2.2
  · have hnamed : (s.addFresh p m n f).named s.faces.length = {(p, n)} := by
      refine Set.ext fun e => ?_
      rw [mem_named, hentry, NamedTree.add, or_iff_right hs.not_entry_length, Set.mem_singleton_iff, Prod.ext_iff]
      exact ⟨fun hnew => ⟨hnew.1, hnew.2.1⟩, fun hnew => ⟨hnew.1, hnew.2, rfl⟩⟩
    rw [hsame.nlink, hf.nlink]
    exact ⟨by rw [hnamed, Set.encard_singleton, Nat.cast_one], by decide⟩

theorem Load.counted (h : Load disk s t) (hs : s.Sound) (hcounted : s.Counted) : t.Counted := by
  cases h with
  | entry hbelow hm hfree hfresh => exact hcounted.addFresh hs hm hfree hfresh

theorem Loads.counted (h : Loads disk s t) (hs : s.Sound) (hcounted : s.Counted) : t.Counted :=
  (h.invariant (I := fun t => t.Sound ∧ t.Counted) ⟨hs, hcounted⟩ fun _ _ ⟨hs, hcounted⟩ hload =>
    ⟨hload.sound hs, hload.counted hs hcounted⟩).2

theorem Counted.bump (h : s.Counted) : s.bump.Counted := fun c f hf hnone => (h c f hf hnone).congr Iff.rfl

theorem Made.counted (h : Made s t) (hs : s.Sound) (hcounted : s.Counted) : t.Counted := by
  cases h with
  | mk hbelow hm hfree hfresh =>
    exact hcounted.bump.addFresh hs.bump hm hfree hfresh

/-! ### Links -/

/-- A node whose entries and count an edit of another node leaves alone. -/
theorem Counted.relink_other {g : Nat → Nat} (h : s.Counted) (hm : s.children? p = some m) {m' : Entries Nat} {f' : Face}
    (hf' : ((s.setChildren p m').relink c g).faces[v]? = some f') (hv : c ≠ v) (hnone : f'.children = none) :
    s.Counts v f'.nlink := by
  obtain ⟨f₁, hf₁, rfl⟩ := face_before_relink hf'
  rw [if_neg hv] at hnone ⊢
  obtain ⟨f, hf, hsame⟩ := face_before_setChildren hm hf₁
  exact h.of_same hf hsame hnone

theorem Counted.relink_self {g : Nat → Nat} (h : s.Counted) (hm : s.children? p = some m) {m' : Entries Nat} {f' : Face}
    (hf' : ((s.setChildren p m').relink c g).faces[c]? = some f') (hnone : f'.children = none) :
    ∃ f, s.faces[c]? = some f ∧ f'.nlink = g f.nlink ∧ s.Counts c f.nlink := by
  obtain ⟨f₁, hf₁, rfl⟩ := face_before_relink hf'
  rw [if_pos rfl] at hnone ⊢
  obtain ⟨f, hf, hsame⟩ := face_before_setChildren hm hf₁
  exact ⟨f, hf, by rw [hsame.nlink], h c f hf (hsame.children_none hnone)⟩

theorem Linked.counted (h : Linked s c t) (hcounted : s.Counted)
    (hfits : ∀ f, s.faces[c]? = some f → f.nlink + 1 < 2 ^ 32) : t.Counted := by
  intro v f' hf' hnone
  cases h with
  | @mk p m n hbelow hm hfree hlt hfile =>
    have hentry : ((s.setChildren p (m.insert n c)).relink c fun k => (k + 1) % 2 ^ 64).Entry =
      NamedTree.add s.Entry p n c := by
      rw [entry_relink, entry_setChildren_insert hm hfree]
    by_cases hv : c = v
    · subst hv
      obtain ⟨f, hf, hnlink, hcounts⟩ := hcounted.relink_self hm hf' hnone
      have hsmall := hfits f hf
      have hnamed : ((s.setChildren p (m.insert n c)).relink c fun k => (k + 1) % 2 ^ 64).named c = insert (p, n)
        (s.named c) := by
        refine Set.ext fun e => ?_
        rw [mem_named, hentry, NamedTree.add, Set.mem_insert_iff, Prod.ext_iff, or_comm]
        exact or_congr_left ⟨fun hnew => ⟨hnew.1, hnew.2.1⟩, fun hnew => ⟨hnew.1, hnew.2, rfl⟩⟩
      have hnew : (p, n) ∉ s.named c := by
        rw [mem_named, entry_iff hm, hfree]
        exact fun h => (by cases h)
      rw [hnlink, Nat.mod_eq_of_lt (Nat.lt_trans hsmall (by decide))]
      refine ⟨?_, hsmall⟩
      rw [hnamed, Set.encard_insert_of_notMem hnew, ← hcounts.exact, Nat.cast_add, Nat.cast_one]
    · refine (hcounted.relink_other hm hf' hv hnone).congr fun {q k} => ?_
      rw [hentry, NamedTree.add]
      exact or_iff_left fun hnew => hv hnew.2.2.symm

theorem Unlinked.counted (h : Unlinked s t) (hcounted : s.Counted) : t.Counted := by
  intro v f' hf' hnone
  cases h with
  | @mk p c m n hm hc hleaf =>
    have hold : s.Entry p n c := (entry_iff hm).2 hc
    have hentry : ((s.setChildren p (m.erase n)).relink c fun k => (k + (2 ^ 64 - 1)) % 2 ^ 64).Entry =
      NamedTree.cut s.Entry p n := by
      rw [entry_relink, entry_setChildren_erase hm]
    by_cases hv : c = v
    · subst hv
      obtain ⟨f, hf, hnlink, hcounts⟩ := hcounted.relink_self hm hf' hnone
      have hnamed : ((s.setChildren p (m.erase n)).relink c fun k => (k + (2 ^ 64 - 1)) % 2 ^ 64).named c =
          s.named c \ {(p, n)} := by
        refine Set.ext fun e => ?_
        rw [mem_named, hentry, NamedTree.cut, Set.mem_sdiff, Set.mem_singleton_iff, Prod.ext_iff]
        exact Iff.rfl
      have hpos : 0 < f.nlink := by
        have hpos := Set.encard_pos.2 ⟨(p, n), mem_named.2 hold⟩
        refine Nat.pos_of_ne_zero fun hzero => ?_
        rw [← hcounts.exact, hzero, Nat.cast_zero] at hpos
        exact lt_irrefl _ hpos
      have hdown : (f.nlink + (2 ^ 64 - 1)) % 2 ^ 64 = f.nlink - 1 := by
        have hfits := hcounts.fits
        omega
      rw [hnlink, hdown]
      refine ⟨?_, Nat.lt_of_le_of_lt (Nat.sub_le _ _) hcounts.fits⟩
      rw [hnamed, Set.encard_sdiff_singleton_of_mem (mem_named.2 hold), ← hcounts.exact, ENat.natCast_sub, Nat.cast_one]
    · refine (hcounted.relink_other hm hf' hv hnone).congr fun {q k} => ?_
      rw [hentry, NamedTree.cut]
      refine and_iff_left_of_imp fun hother hsame => hv ?_
      rw [hsame.1, hsame.2] at hother
      exact hold.child hother

theorem not_isDir_of_face (hf : s.faces[c]? = some f) (hnone : f.children = none) : ¬ s.IsDir c := by
  rw [← children?_eq_none, children?, hf]
  exact hnone

theorem Renamed.counted (h : Renamed s p n q k c t) (hcounted : s.Counted) (hdir : ∀ d, s.Entry q k d → s.IsDir d) :
    t.Counted := by
  intro v f' hf' hnone
  obtain ⟨f, hf, hsame⟩ := face_before h.length h.face hf'
  have hcounts := hcounted.of_same hf hsame hnone
  have hfree : ¬ s.Entry q k v := fun hentry => not_isDir_of_face hf (hsame.children_none hnone) (hdir v hentry)
  by_cases hv : v = c
  · subst hv
    have hnamed : t.named v = insert (q, k) (s.named v \ {(p, n)}) := by
      refine Set.ext fun e => ?_
      rw [mem_named, h.entry, NamedTree.add, NamedTree.cut, NamedTree.cut, Set.mem_insert_iff, Set.mem_sdiff, mem_named,
        Set.mem_singleton_iff, Prod.ext_iff, Prod.ext_iff, or_comm]
      refine or_congr ⟨fun hnew => ⟨hnew.1, hnew.2.1⟩, fun hnew => ⟨hnew.1, hnew.2, rfl⟩⟩ ⟨fun hold => ⟨hold.1.1, hold.2⟩,
        ?_⟩
      rintro ⟨hold, hsource⟩
      refine ⟨⟨hold, fun htarget => hfree ?_⟩, hsource⟩
      rwa [htarget.1, htarget.2] at hold
    have hout : (q, k) ∉ s.named v \ {(p, n)} := fun hin => hfree (mem_named.1 hin.1)
    refine ⟨?_, hcounts.fits⟩
    rw [hnamed, Set.encard_insert_of_notMem hout, Set.encard_sdiff_singleton_add_one (mem_named.2 h.source), hcounts.exact]
  · refine hcounts.congr fun {a b} => ?_
    rw [h.entry, NamedTree.add, or_iff_left fun hnew => hv hnew.2.2, NamedTree.cut, NamedTree.cut]
    refine ⟨fun hold => hold.1.1, fun hold => ⟨⟨hold, fun htarget => hfree ?_⟩, fun hsource => hv ?_⟩⟩
    · rwa [htarget.1, htarget.2] at hold
    · rw [hsource.1, hsource.2] at hold
      exact hold.child h.source

end Names

/-! ### Runs -/

def Op.Countable (disk : Nat → Ext4FileSystem) (s : Heap) : Op → Prop
  | .rename oldPath newPath => ∀ move m, renameLookup disk oldPath newPath s = .ok move m →
      ∀ d m', lookupChild disk move.newParent move.newName m = .ok (some d) m' →
        m'.names.IsDir d ∨ move.oldParent = move.newParent ∧ move.oldName = move.newName
  | .link oldPath _ followSource => ∀ c m, lookupFollow disk followSource (maxSymlinkFollows + 1) oldPath s = .ok c m →
      ∀ node, m.nodes[c]? = some node → node.nlink + 1 < 2 ^ 32
  | .mount _ path => ∀ id m, lookup disk path s = .ok id m → m.names.children? id = some ∅
  | _ => True

theorem Names.Fizzled.counted {s t : Names} (h : Names.Fizzled disk s t) (hs : s.Sound) (hcounted : s.Counted) :
    t.Counted := by
  obtain ⟨u, hloads, rfl | rfl⟩ := h
  · exact hloads.counted hs hcounted
  · exact (hloads.counted hs hcounted).bump

theorem Renaming.counted {oldPath newPath : Path} {t : Names} {move : Move} {m m' : Heap} {target : Option Nat} {u : Names}
    (h : Renaming disk s oldPath newPath t move m target m' u) (hs : s.names.Sound) (hcounted : s.names.Counted)
    (hcountable : Op.Countable disk s (.rename oldPath newPath)) : t.Counted := by
  have hsm : m.names.Sound := h.found.loads.sound hs
  have hu : u.Counted := (h.loads.trans h.loads').counted hsm (h.found.loads.counted hs hcounted)
  rcases h.outcome with ⟨-, -, rfl⟩ | hrenamed
  · exact hu
  · refine hrenamed.counted hu fun d hd => ?_
    have htarget := h.replaced d hd
    subst htarget
    rcases hcountable move m h.lookup d m' h.lookupTarget with hdir | hsame
    · rw [h.loads'.isDir_iff (Names.lt_of_isDir hdir)]
      exact hdir
    · exact absurd hsame hrenamed.distinct

theorem Stepped.counted {op : Op} {t : Names} (h : Stepped disk s op t) (hs : s.names.Sound) (hcounted : s.names.Counted)
    (hcountable : op.Countable disk s) : t.Counted := by
  cases h with
  | fizzled h => exact h.counted hs hcounted
  | created h =>
    obtain ⟨u, hloads, hmade⟩ := h
    exact hmade.counted (hloads.sound hs) (hloads.counted hs hcounted)
  | @linked _ _ _ c m u t hlookup hfound hlt hloads h =>
    have hm : m.names.Counted := hfound.loads.counted hs hcounted
    refine h.counted (hloads.counted (hfound.loads.sound hs) hm) fun f hf => ?_
    -- the count is the one that the lookup of the file has seen
    obtain ⟨node, hnode⟩ : ∃ node, m.nodes[c]? = some node := ⟨_, List.getElem?_eq_getElem (length_names ▸ hlt)⟩
    obtain ⟨f', hf', hsame⟩ := hloads.face (face_names hnode)
    rw [hf] at hf'
    cases hf'
    rw [hsame.nlink]
    exact hcountable c m hlookup _ hnode
  | unlinked hloads h => exact h.counted (hloads.counted hs hcounted)
  | renamed h => exact h.counted hs hcounted hcountable
  | mounted hlookup hfound =>
    rw [Names.setChildren_self (hcountable _ _ hlookup)]
    exact hfound.loads.counted hs hcounted

def keepingCounts (disk : Nat → Ext4FileSystem) : TransitionSystem Heap (Op × Memory) :=
  (system disk).restrict fun s a => a.1.Countable disk { s with memory := a.2 }

theorem counted_of_reachable (h : (keepingCounts disk).Reachable s) : s.names.Sound ∧ s.names.Counted := by
  refine h.invariant (I := fun s => s.names.Sound ∧ s.names.Counted) (fun s ⟨_, hboot⟩ => ?_)
    fun s a t ⟨hs, hcounted⟩ ⟨hstep, hcountable⟩ => ?_
  · refine (boot_spec hboot).invariant (I := fun s => s.Sound ∧ s.Counted) ⟨sound_emptyRoot, fun c f hf hnone => ?_⟩
      fun _ _ ⟨hs, hcounted⟩ hmade => ⟨hmade.sound hs, hmade.counted hs hcounted⟩
    obtain rfl : f = _ := List.mem_singleton.1 (List.mem_of_getElem? hf)
    cases hnone
  · have hstepped : Stepped disk { s with memory := a.2 } a.1 t.names := hstep ▸ Op.stepped hs
    exact ⟨hstepped.sound hs, hstepped.counted hs hcounted hcountable⟩

/-- The link count that is reported of a file is the number of entries that name it. -/
theorem reported_links_exact (h : (keepingCounts disk).Reachable s) {id : Nat} {node : Node}
    (hnode : s.nodes[id]? = some node)
    (hfile : node.fileType ≠ .directory) : ((statForNode node).nlink : ℕ∞) = (s.names.named id).encard := by
  obtain ⟨hs, hcounted⟩ := counted_of_reachable h
  rw [ne_eq, fileType_iff hs hnode, ← Names.children?_eq_none, Names.children?, face_names hnode] at hfile
  have hcounts := hcounted id node.face (face_names hnode) hfile
  have hreport : (statForNode node).nlink = node.nlink := Nat.mod_eq_of_lt hcounts.fits
  rw [hreport]
  exact hcounts.exact

/-- `/b` is created and gets the second name `/c`. -/
theorem reported_links_exact_two : ∃ s node, (keepingCounts noVolumes).Reachable s ∧ s.nodes[10]? = some node ∧
    (statForNode node).nlink = 2 ∧ ((statForNode node).nlink : ℕ∞) = (s.names.named 10).encard := by
  have hmade : (playFromBoot noVolumes [(.openFile (str "/b") creating, [])]).any (fun s =>
      (match lookupFollow noVolumes true (maxSymlinkFollows + 1) (str "/b") { s with memory := [] } with
        | .ok c m => (m.nodes[c]?).all fun node => node.nlink + 1 < 2 ^ 32
        | .error _ _ => true) &&
      ((Op.apply noVolumes (.link (str "/b") (str "/c") true) [] s).nodes[10]?).any fun node =>
        (statForNode node).nlink = 2 ∧ node.fileType ≠ .directory) = true := by
    decide +kernel
  obtain ⟨s, hs, hcheck⟩ := (Option.any_eq_true _ _).1 hmade
  obtain ⟨t, hboot, hplay⟩ := Option.bind_eq_some_iff.1 hs
  obtain ⟨hlookup, hlinked⟩ := Bool.and_eq_true_iff.1 hcheck
  obtain ⟨node, hnode, hnlink⟩ := (Option.any_eq_true _ _).1 hlinked
  obtain ⟨hnlink, hfile⟩ := of_decide_eq_true hnlink
  have hs : (keepingCounts noVolumes).Reachable s := by
    refine .step (a := (.openFile (str "/b") creating, [])) (.init ⟨[], hboot⟩) ⟨?_, trivial⟩
    exact (Option.some.inj hplay).symm
  have ht : (keepingCounts noVolumes).Reachable (Op.apply noVolumes (.link (str "/b") (str "/c") true) [] s) := by
    refine .step (a := (.link (str "/b") (str "/c") true, [])) hs ⟨rfl, fun c m hm node hnode => ?_⟩
    rw [hm] at hlookup
    dsimp only at hlookup
    rw [hnode, Option.all_some] at hlookup
    exact of_decide_eq_true hlookup
  exact ⟨_, node, ht, hnode, hnlink, reported_links_exact ht hnode hfile⟩

def Names.entries (s : Names) : List (Nat × Name × Nat) :=
  s.faces.zipIdx.flatMap fun (f, p) => ((f.children.map fun m => m.toList).getD []).map fun (n, c) => (p, n, c)

theorem Names.mem_entries {s : Names} {p c : Nat} {n : Name} (h : s.Entry p n c) : (p, n, c) ∈ s.entries := by
  obtain ⟨m, hm, hc⟩ := h
  obtain ⟨f, hf, hchildren⟩ := Option.bind_eq_some_iff.1 hm
  refine List.mem_flatMap.2 ⟨(f, p), List.mem_zipIdx_iff_getElem?.2 hf, ?_⟩
  dsimp only
  rw [hchildren, Option.map_some, Option.getD_some]
  exact List.mem_map.2 ⟨(n, c), Std.ExtTreeMap.mem_toList_iff_getElem?_eq_some.2 hc, rfl⟩

def renameOverLinked : List (Op × Memory) :=
  [(.openFile (str "/a") creating, []), (.openFile (str "/b") creating, []), (.link (str "/b") (str "/c") true, []),
    (.rename (str "/a") (str "/b"), [])]

theorem replaced_file_keeps_count : ∃ s id node, (system noVolumes).Reachable s ∧ s.nodes[id]? = some node ∧
    node.fileType = .regular ∧ (statForNode node).nlink = 2 ∧ (s.names.named id).encard = 1 := by
  have hplay : (playFromBoot noVolumes renameOverLinked).any (fun s =>
      (s.nodes[11]?).any (fun node => node.fileType = .regular ∧ (statForNode node).nlink = 2) &&
      (s.names.child? rootId (str "c") == some 11 &&
      s.names.entries.all fun (p, n, c) => c != 11 || (p == rootId && n == str "c"))) = true := by
    decide +kernel
  obtain ⟨s, hs, hcheck⟩ := (Option.any_eq_true _ _).1 hplay
  obtain ⟨hnode, hentries⟩ := Bool.and_eq_true_iff.1 hcheck
  obtain ⟨hnamed, hentries⟩ := Bool.and_eq_true_iff.1 hentries
  obtain ⟨node, hnode, hstat⟩ := (Option.any_eq_true _ _).1 hnode
  obtain ⟨htype, hnlink⟩ := of_decide_eq_true hstat
  have hone : s.names.named 11 = {(rootId, str "c")} := by
    refine Set.ext fun ⟨p, n⟩ => ⟨fun hentry => ?_, ?_⟩
    · have hall := List.all_eq_true.1 hentries _ (Names.mem_entries hentry)
      simpa using hall
    · rintro ⟨⟩
      exact Names.entry_of_child? (beq_iff_eq.1 hnamed)
  exact ⟨s, 11, node, reachable_of_play hs, hnode, htype, hnlink, by rw [hone, Set.encard_singleton]⟩

end Vfs

end SudoOS
