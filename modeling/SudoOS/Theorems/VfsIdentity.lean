import SudoOS.Theorems.VfsSystem
import SudoOS.Kernel.RecordLock

/-! The identity of files. -/

namespace SudoOS

namespace Vfs

open Ext4 Program

variable {disk : Nat → Ext4FileSystem} {s t : Heap}

namespace Names

variable {s t u : Names} {p q c : Nat} {n k : Name} {m : Entries Nat} {f : Face}

structure Face.Known (disk : Nat → Ext4FileSystem) (next : Nat) (f : Face) : Prop where
  counter : f.origin = none → f.ino < next
  volume : ∀ {fs ino : Nat}, f.origin = some (fs, ino) → f.ino = ino ∧ OnVolume (disk fs) ino

structure Identified (disk : Nat → Ext4FileSystem) (s : Names) : Prop where
  known : ∀ {id : Nat} {f : Face}, s.faces[id]? = some f → Face.Known disk s.nextInode f
  distinct : ∀ {id id' : Nat} {f f' : Face}, s.faces[id]? = some f → s.faces[id']? = some f' → f.origin = none →
    f'.origin = none → f.ino = f'.ino → id = id'

theorem Face.Same.known {f f' : Face} {next : Nat} (h : Face.Same f f') (hf : Face.Known disk next f) :
    Face.Known disk next f' := by
  refine ⟨fun hnone => ?_, fun hvolume => ?_⟩
  · rw [h.ino]
    exact hf.counter (h.origin ▸ hnone)
  · rw [h.ino]
    exact hf.volume (h.origin ▸ hvolume)

/-- Edits that neither number nodes nor renumber them. -/
theorem Identified.of_before (h : s.Identified disk) (hnext : t.nextInode = s.nextInode)
    (hbefore : ∀ {id : Nat} {f' : Face}, t.faces[id]? = some f' → ∃ f, s.faces[id]? = some f ∧ f'.ino = f.ino ∧
      f'.origin = f.origin) :
    t.Identified disk where
  known hf' := by
    obtain ⟨f, hf, hino, horigin⟩ := hbefore hf'
    have hknown := h.known hf
    refine ⟨fun hnone => ?_, fun hvolume => ?_⟩
    · rw [hnext, hino]
      exact hknown.counter (horigin ▸ hnone)
    · rw [hino]
      exact hknown.volume (horigin ▸ hvolume)
  distinct hf' hf₁' hnone hnone₁ heq := by
    obtain ⟨f, hf, hino, horigin⟩ := hbefore hf'
    obtain ⟨f₁, hf₁, hino₁, horigin₁⟩ := hbefore hf₁'
    exact h.distinct hf hf₁ (horigin ▸ hnone) (horigin₁ ▸ hnone₁) (by rw [← hino, ← hino₁, heq])

theorem Identified.setChildren (h : s.Identified disk) (hm : s.children? p = some m) {m' : Entries Nat} :
    (s.setChildren p m').Identified disk :=
  h.of_before rfl fun hf' =>
    let ⟨f, hf, hsame⟩ := face_before_setChildren hm hf'
    ⟨f, hf, hsame.ino, hsame.origin⟩

theorem Identified.relink (h : s.Identified disk) {g : Nat → Nat} : (s.relink c g).Identified disk := by
  refine h.of_before rfl fun hf' => ?_
  obtain ⟨f, hf, rfl⟩ := face_before_relink hf'
  refine ⟨f, hf, ?_⟩
  split
  · exact ⟨rfl, rfl⟩
  · exact ⟨rfl, rfl⟩

/-- A new node, whose number is new if it comes from the counter. -/
theorem Identified.addFresh (h : s.Identified disk) (hm : s.children? p = some m) (hknown : Face.Known disk s.nextInode f)
    (hnew : f.origin = none → ∀ {id : Nat} {f₀ : Face}, s.faces[id]? = some f₀ → f₀.origin = none → f₀.ino ≠ f.ino) :
    (s.addFresh p m n f).Identified disk where
  known hf' := by
    rcases face_before_addFresh hm hf' with ⟨-, f₀, hf₀, hsame⟩ | ⟨-, hsame⟩
    · exact hsame.known (h.known hf₀)
    · exact hsame.known hknown
  distinct {id id' f' f₁'} hf' hf₁' hnone hnone₁ heq := by
    rcases face_before_addFresh hm hf' with ⟨-, f₀, hf₀, hsame⟩ | ⟨rfl, hsame⟩
    · rw [hsame.origin] at hnone
      rcases face_before_addFresh hm hf₁' with ⟨-, f₁, hf₁, hsame₁⟩ | ⟨rfl, hsame₁⟩
      · exact h.distinct hf₀ hf₁ hnone (hsame₁.origin ▸ hnone₁) (by rw [← hsame.ino, ← hsame₁.ino, heq])
      · exact absurd (by rw [← hsame.ino, ← hsame₁.ino, heq]) (hnew (hsame₁.origin ▸ hnone₁) hf₀ hnone)
    · rw [hsame.origin] at hnone
      rcases face_before_addFresh hm hf₁' with ⟨-, f₁, hf₁, hsame₁⟩ | ⟨rfl, hsame₁⟩
      · exact absurd (by rw [← hsame.ino, ← hsame₁.ino, heq]) (hnew hnone hf₁ (hsame₁.origin ▸ hnone₁))
      · rfl

theorem Load.identified (h : Load disk s t) (hs : s.Identified disk) : t.Identified disk := by
  cases h with
  | entry hbelow hm hfree hfresh horigin hdisk =>
    refine hs.addFresh hm ⟨fun hnone => ?_, fun hvolume => ?_⟩ fun hnone => ?_
    · rw [horigin] at hnone
      cases hnone
    · rw [horigin] at hvolume
      cases hvolume
      exact ⟨rfl, hdisk⟩
    · rw [horigin] at hnone
      cases hnone

theorem Loads.identified (h : Loads disk s t) (hs : s.Identified disk) : t.Identified disk :=
  h.invariant hs fun _ _ hs hload => hload.identified hs

theorem bump_nextInode (h : s.nextInode + 1 < 2 ^ 64) : s.bump.nextInode = s.nextInode + 1 := Nat.mod_eq_of_lt h

theorem Identified.bump (h : s.Identified disk) (hnext : s.nextInode + 1 < 2 ^ 64) : s.bump.Identified disk where
  known hf := by
    have hknown := h.known hf
    refine ⟨fun hnone => ?_, hknown.volume⟩
    rw [bump_nextInode hnext]
    exact Nat.lt_succ_of_lt (hknown.counter hnone)
  distinct := h.distinct

theorem Made.identified (h : Made s t) (hs : s.Identified disk) (hnext : s.nextInode + 1 < 2 ^ 64) : t.Identified disk := by
  cases h with
  | mk hbelow hm hfree hfresh hino horigin =>
    refine (hs.bump hnext).addFresh hm ⟨fun _ => ?_, fun hvolume => ?_⟩ fun _ id f₀ hf₀ hnone => ?_
    · rw [hino, bump_nextInode hnext]
      exact Nat.lt_succ_self _
    · rw [horigin] at hvolume
      cases hvolume
    · rw [hino]
      exact Nat.ne_of_lt ((hs.known hf₀).counter hnone)

theorem Made.nextInode (h : Made s t) : t.nextInode = s.bump.nextInode := by
  cases h with
  | mk => rfl

theorem Linked.identified (h : Linked s c t) (hs : s.Identified disk) : t.Identified disk ∧ t.nextInode = s.nextInode := by
  cases h with
  | mk _ hm => exact ⟨(hs.setChildren hm).relink, rfl⟩

theorem Unlinked.identified (h : Unlinked s t) (hs : s.Identified disk) : t.Identified disk ∧
    t.nextInode = s.nextInode := by
  cases h with
  | mk hm => exact ⟨(hs.setChildren hm).relink, rfl⟩

theorem Renamed.identified (h : Renamed s p n q k c t) (hs : s.Identified disk) : t.Identified disk :=
  hs.of_before h.nextInode fun hf' =>
    let ⟨f, hf, hsame⟩ := face_before h.length h.face hf'
    ⟨f, hf, hsame.ino, hsame.origin⟩

end Names

/-- A call gives out at most one number. -/
theorem Stepped.identified {op : Op} {t : Names} (h : Stepped disk s op t) (hs : s.names.Identified disk)
    (hnext : s.names.nextInode + 1 < 2 ^ 64) : t.Identified disk ∧ t.nextInode ≤ s.names.nextInode + 1 := by
  have hbump : ∀ {u : Names}, Names.Loads disk s.names u →
      u.nextInode + 1 < 2 ^ 64 ∧ u.bump.nextInode = s.names.nextInode + 1 := by
    intro u hloads
    have hu : u.nextInode + 1 < 2 ^ 64 := hloads.nextInode ▸ hnext
    exact ⟨hu, by rw [Names.bump_nextInode hu, hloads.nextInode]⟩
  have hkept : ∀ {u : Names}, Names.Loads disk s.names u → u.nextInode ≤ s.names.nextInode + 1 := fun hloads =>
    hloads.nextInode ▸ Nat.le_succ _
  cases h with
  | fizzled h =>
    obtain ⟨u, hloads, rfl | rfl⟩ := h
    · exact ⟨hloads.identified hs, hkept hloads⟩
    · obtain ⟨hu, hnew⟩ := hbump hloads
      exact ⟨(hloads.identified hs).bump hu, Nat.le_of_eq hnew⟩
  | created h =>
    obtain ⟨u, hloads, hmade⟩ := h
    obtain ⟨hu, hnew⟩ := hbump hloads
    exact ⟨hmade.identified (hloads.identified hs) hu, Nat.le_of_eq (hmade.nextInode.trans hnew)⟩
  | linked _ hfound _ hloads h =>
    have hall : Names.Loads disk s.names _ := hfound.loads.trans hloads
    obtain ⟨ht, hnew⟩ := h.identified (hall.identified hs)
    exact ⟨ht, hnew ▸ hkept hall⟩
  | unlinked hloads h =>
    obtain ⟨ht, hnew⟩ := h.identified (hloads.identified hs)
    exact ⟨ht, hnew ▸ hkept hloads⟩
  | renamed h =>
    have hall : Names.Loads disk s.names _ := h.found.loads.trans (h.loads.trans h.loads')
    rcases h.outcome with ⟨-, -, rfl⟩ | hrenamed
    · exact ⟨hall.identified hs, hkept hall⟩
    · exact ⟨hrenamed.identified (hall.identified hs), hrenamed.nextInode ▸ hkept hall⟩
  | mounted _ hfound hdir =>
    obtain ⟨m, hm⟩ := Names.isDir_iff.1 hdir
    have hnext : _ ≤ s.names.nextInode + 1 := hkept hfound.loads
    exact ⟨(hfound.loads.identified hs).setChildren hm, hnext⟩

/-! ### Runs -/

def Apart (disk : Nat → Ext4FileSystem) (s : Heap) : Prop :=
  s.nextInode + 1 < 2 ^ 64 ∧ ∀ fs ino, Names.OnVolume (disk fs) ino → s.nextInode < ino

/-- The runs in which the counter stays below the numbers of the volumes. -/
def keepingApart (disk : Nat → Ext4FileSystem) : TransitionSystem Heap (Op × Memory) where
  init s := (system disk).init s ∧ s.nodes.length + 1 < 2 ^ 64 ∧ Apart disk s
  step s a t := (system disk).step s a t ∧ Apart disk s

/-- While less than `2 ^ 64` nodes are made, boot numbers them one after the other. -/
theorem Names.Booted.identified {t : Names} (h : Names.Booted t) (hfew : t.faces.length + 1 < 2 ^ 64) :
    t.Identified disk := by
  have hall : t.faces.length + 1 < 2 ^ 64 → t.nextInode = t.faces.length + 1 ∧ t.Identified disk := by
    refine h.invariant (I := fun t => t.faces.length + 1 < 2 ^ 64 → t.nextInode = t.faces.length + 1 ∧ t.Identified disk)
      (fun _ => ⟨rfl, ?_⟩) fun s t hs hmade hlt => ?_
    · refine ⟨fun {id f} hf => ?_, fun {id id' f f'} hf hf' _ _ _ => ?_⟩
      · obtain rfl : f = _ := List.mem_singleton.1 (List.mem_of_getElem? hf)
        exact ⟨fun _ => by decide, fun hvolume => (nomatch hvolume)⟩
      · have hlt := (List.getElem?_eq_some_iff.1 hf).1
        have hlt' := (List.getElem?_eq_some_iff.1 hf').1
        exact (Nat.lt_one_iff.1 hlt).trans (Nat.lt_one_iff.1 hlt').symm
    · have hlength : t.faces.length = s.faces.length + 1 := by
        cases hmade with
        | mk => exact Names.length_addFresh
      rw [hlength] at hlt
      obtain ⟨hnext, hid⟩ := hs (Nat.lt_of_succ_lt hlt)
      rw [← hnext] at hlt
      refine ⟨?_, hmade.identified hid hlt⟩
      rw [hmade.nextInode, Names.bump_nextInode hlt, hlength, hnext]
  exact (hall hfew).2

theorem identified_of_reachable (h : (keepingApart disk).Reachable s) :
    s.names.Sound ∧ s.names.Identified disk ∧ ∀ fs ino, Names.OnVolume (disk fs) ino → s.nextInode ≤ ino := by
  refine h.invariant
    (I := fun s => s.names.Sound ∧ s.names.Identified disk ∧ ∀ fs ino, Names.OnVolume (disk fs) ino → s.nextInode ≤ ino)
    (fun s ⟨⟨_, hboot⟩, hfew, hapart⟩ => ?_) fun s a t ⟨hs, hid, _⟩ ⟨hstep, hapart⟩ => ?_
  · have hbooted := boot_spec hboot
    refine ⟨hbooted.invariant sound_emptyRoot fun _ _ hs hmade => hmade.sound hs, hbooted.identified ?_,
      fun fs ino hino => Nat.le_of_lt (hapart.2 fs ino hino)⟩
    rw [length_names]
    exact hfew
  · have hstepped : Stepped disk { s with memory := a.2 } a.1 t.names := hstep ▸ Op.stepped hs
    obtain ⟨ht, hnext⟩ := hstepped.identified hid hapart.1
    exact ⟨hstepped.sound hs, ht, fun fs ino hino => Nat.le_trans hnext (hapart.2 fs ino hino)⟩

def fileKey (node : Node) : Nat × Nat := ((statForNode node).dev, (statForNode node).ino)

/-- Two nodes are of one file if they are the same, or if they come from the same inode of the same volume. -/
def SameFile (id id' : Nat) (node node' : Node) : Prop := id = id' ∨ node.origin = node'.origin ∧ node.origin.isSome

/-- Different files have different keys, and locks on one never conflict with locks on the other. -/
theorem fileKey_unique (h : (keepingApart disk).Reachable s)
    (hdisjoint : ∀ fs fs' ino, Names.OnVolume (disk fs) ino → Names.OnVolume (disk fs') ino → fs = fs')
    {id id' : Nat} {node node' : Node} (hnode : s.nodes[id]? = some node) (hnode' : s.nodes[id']? = some node')
    (hother : ¬ SameFile id id' node node') :
    fileKey node ≠ fileKey node' ∧
      ∀ existing requested : PosixRecordLock, (existing.dev, existing.ino) = fileKey node →
        (requested.dev, requested.ino) = fileKey node' → RecordLock.fcntlLockConflicts existing requested = false := by
  obtain ⟨-, hid, hahead⟩ := identified_of_reachable h
  have hne : node.ino ≠ node'.ino := by
    intro heq
    have hknown := hid.known (face_names hnode)
    have hknown' := hid.known (face_names hnode')
    refine hother ?_
    cases horigin : node.origin with
    | none =>
      cases horigin' : node'.origin with
      | none => exact .inl (hid.distinct (face_names hnode) (face_names hnode') horigin horigin' heq)
      | some source' =>
        obtain ⟨hino', hon'⟩ := hknown'.volume horigin'
        have hlt := Nat.lt_of_lt_of_le (hknown.counter horigin) (hahead _ _ hon')
        exact absurd (heq.trans hino') (Nat.ne_of_lt hlt)
    | some source =>
      obtain ⟨hino, hon⟩ := hknown.volume horigin
      cases horigin' : node'.origin with
      | none =>
        have hlt := Nat.lt_of_lt_of_le (hknown'.counter horigin') (hahead _ _ hon)
        exact absurd (heq.symm.trans hino) (Nat.ne_of_lt hlt)
      | some source' =>
        obtain ⟨hino', hon'⟩ := hknown'.volume horigin'
        have hnumber : source.2 = source'.2 := hino.symm.trans (heq.trans hino')
        refine .inr ⟨?_, by rw [horigin]; rfl⟩
        rw [horigin, horigin']
        exact congrArg some (Prod.ext (hdisjoint _ _ _ hon (hnumber ▸ hon')) hnumber)
  refine ⟨fun heq => hne (Prod.ext_iff.1 heq).2, fun existing requested hexisting hrequested => ?_⟩
  have hexisting : existing.ino = node.ino := (Prod.ext_iff.1 hexisting).2
  have hrequested : requested.ino = node'.ino := (Prod.ext_iff.1 hrequested).2
  have hino : existing.ino ≠ requested.ino := by
    rw [hexisting, hrequested]
    exact hne
  simp [RecordLock.fcntlLockConflicts, hino]

theorem onVolume_volumeWith {ino : UInt8} {i : Nat} (h : Names.OnVolume (volumeWith ino) i) : i = ino.toNat := by
  have hinfo : ∀ {j : Nat} {info : Ext4NodeInfo}, (volumeWith ino).inodeInfo j = .ok info → info.ino = j := fun h =>
    (inodeInfo_spec h).1
  rcases h with ⟨parent, name, info, hlookup, rfl⟩ | ⟨parent, entries, hlist, entry, hentry, rfl⟩
  · obtain ⟨j, hj, hinode⟩ := bind_eq_ok.1 hlookup
    obtain ⟨data, hdata, hloop⟩ := bind_eq_ok.1 hj
    rw [directoryBytes_volumeWith hdata] at hloop
    rw [hinfo hinode]
    replace hloop := lookupLoop_volumeWith.symm.trans hloop
    split at hloop
    · exact (Except.ok.inj hloop).symm
    · cases hloop
  · obtain ⟨data, hdata, hrest⟩ := bind_eq_ok.1 hlist
    obtain ⟨listed, hloop, hrest⟩ := bind_eq_ok.1 hrest
    obtain ⟨a, ha, hok⟩ := mem_mapM hrest hentry
    obtain ⟨info, hinode, hok⟩ := bind_eq_ok.1 hok
    rw [pure_eq_ok] at hok
    subst hok
    rw [hinfo hinode]
    rw [directoryBytes_volumeWith hdata] at hloop
    simp [listLoop, dirRecord, bind, Except.bind] at hloop
    split at hloop
    · cases hloop
      cases ha
    · split at hloop
      · cases hloop
      · rw [pure_eq_ok] at hloop
        subst hloop
        rw [List.mem_singleton.1 ha]

def oneVolume (ino : UInt8) : Nat → Ext4FileSystem := fun fs => if fs = 0 then volumeWith ino else noVolumes fs

theorem onVolume_oneVolume {ino : UInt8} {fs i : Nat} (h : Names.OnVolume (oneVolume ino fs) i) : fs = 0 ∧
    i = ino.toNat := by
  unfold oneVolume at h
  split at h
  · exact ⟨‹_›, onVolume_volumeWith h⟩
  · rcases h with ⟨parent, name, info, hlookup, -⟩ | ⟨parent, entries, hlist, -⟩
    · cases hlookup
    · cases hlist

def mountAndCreate : List (Op × Memory) :=
  [(.mkdir (str "/m") 0o755, []), (.mount 0 (str "/m"), []), (.openFile (str "/a") creating, []),
    (.stat (str "/m/f") true, [])]

/-- The file of the volume has a number that the counter is far from. -/
theorem fileKey_unique_mounted : ∃ s node node', (keepingApart (oneVolume 100)).Reachable s ∧ s.nodes[11]? = some node ∧
    s.nodes[12]? = some node' ∧ node'.ino = 100 ∧ fileKey node ≠ fileKey node' := by
  have hplay : (boot []).any (fun t => t.nodes.length = 10 ∧ t.nextInode < 99 ∧
      (TransitionSystem.play (fun s a => if s.nextInode < 99 then some (a.1.apply (oneVolume 100) a.2 s) else none) t
        mountAndCreate).any fun s => (s.nodes[11]?).any fun node => (s.nodes[12]?).any fun node' =>
          node.origin = none ∧ node'.ino = 100) = true := by decide +kernel
  have hapart : ∀ {s : Heap}, s.nextInode < 99 → Apart (oneVolume 100) s := by
    refine fun hs => ⟨Nat.lt_trans (Nat.succ_lt_succ hs) (by decide), fun fs ino hino => ?_⟩
    rw [(onVolume_oneVolume hino).2]
    exact Nat.lt_trans hs (by decide)
  obtain ⟨t, hboot, hcheck⟩ := (Option.any_eq_true _ _).1 hplay
  obtain ⟨hfew, hnext, hcheck⟩ := of_decide_eq_true hcheck
  obtain ⟨s, hs, hnodes⟩ := (Option.any_eq_true _ _).1 hcheck
  obtain ⟨node, hnode, hnodes⟩ := (Option.any_eq_true _ _).1 hnodes
  obtain ⟨node', hnode', hnodes⟩ := (Option.any_eq_true _ _).1 hnodes
  obtain ⟨hmemory, hino⟩ := of_decide_eq_true hnodes
  have hreach : (keepingApart (oneVolume 100)).Reachable s := by
    have hinit : (keepingApart (oneVolume 100)).Reachable t := .init ⟨⟨[], hboot⟩, by rw [hfew]; decide, hapart hnext⟩
    refine hinit.later (TransitionSystem.play_later (fun {s a t} hstep => ?_) hs)
    split at hstep
    · exact ⟨(Option.some.inj hstep).symm, hapart ‹_›⟩
    · cases hstep
  have hother : ¬ SameFile 11 12 node node' := by
    rintro (heq | ⟨-, hsome⟩)
    · cases heq
    · rw [hmemory] at hsome
      cases hsome
  have hdisjoint : ∀ fs fs' ino, Names.OnVolume (oneVolume 100 fs) ino → Names.OnVolume (oneVolume 100 fs') ino →
    fs = fs' :=
    fun fs fs' ino h h' => (onVolume_oneVolume h).1.trans (onVolume_oneVolume h').1.symm
  exact ⟨s, node, node', hreach, hnode, hnode', hino, (fileKey_unique hreach hdisjoint hnode hnode' hother).1⟩

/-- The file of the volume has the number that `/a` got from the counter. -/
theorem memory_file_collides : ∃ s node node', (system (oneVolume 12)).Reachable s ∧ s.nodes[11]? = some node ∧
    s.nodes[12]? = some node' ∧ ¬ SameFile 11 12 node node' ∧ fileKey node = fileKey node' := by
  have hplay : (playFromBoot (oneVolume 12) mountAndCreate).any (fun s =>
      (s.nodes[11]?).any fun node => (s.nodes[12]?).any fun node' =>
        node.origin = none ∧ node'.origin = some (0, 12) ∧ fileKey node = fileKey node') = true := by decide +kernel
  obtain ⟨s, hs, hnodes⟩ := (Option.any_eq_true _ _).1 hplay
  obtain ⟨node, hnode, hnodes⟩ := (Option.any_eq_true _ _).1 hnodes
  obtain ⟨node', hnode', hcheck⟩ := (Option.any_eq_true _ _).1 hnodes
  obtain ⟨hmemory, hvolume, hkey⟩ := of_decide_eq_true hcheck
  refine ⟨s, node, node', reachable_of_play hs, hnode, hnode', ?_, hkey⟩
  rintro (heq | ⟨-, hsome⟩)
  · cases heq
  · rw [hmemory] at hsome
    cases hsome

end Vfs

end SudoOS
