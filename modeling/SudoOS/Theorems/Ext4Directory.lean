import SudoOS.Kernel.Ext4Directory

/-! Listing a directory of a volume against looking its names up. -/

namespace SudoOS.Ext4

open Vfs (Name dot slash)
open Program (bind_eq_ok)

variable {fs : Ext4FileSystem} {ino : Nat} {name : Name}

namespace DirRecord

def aligned (r : DirRecord) : Bool := r.recLen % 4 = 0

def listed (r : DirRecord) : Bool := r.ino ≠ 0 ∧ ¬ skipped r.name

def answers (name : Name) (r : DirRecord) : Bool := r.ino ≠ 0 ∧ r.name = name

end DirRecord

def walk : Nat → List UInt8 → Except Ext4Error (List DirRecord)
  | 0, _ => .ok []
  | fuel + 1, data => do
    match ← dirRecord false data with
    | none => .ok []
    | some record => do
      let rest ← walk fuel (data.drop record.recLen)
      pure (record :: rest)

def Ext4FileSystem.records (fs : Ext4FileSystem) (ino : Nat) : Except Ext4Error (List DirRecord) := do
  let data ← fs.directoryBytes ino
  walk data.length data

/-- The checks of the two walkers differ in the alignment only. -/
theorem dirRecord_true (data : List UInt8) : dirRecord true data = dirRecord false data >>= fun
    | none => .ok none
    | some r => if r.aligned then .ok (some r) else .error .badDirectory := by
  unfold dirRecord
  split
  · rename_i i₀ i₁ i₂ i₃ r₀ r₁ n t rest
    dsimp only
    generalize (i₀ :: i₁ :: i₂ :: i₃ :: r₀ :: r₁ :: n :: t :: rest).length = len
    by_cases hbad : r₀.toNat + 256 * r₁.toNat = 0 ∨ r₀.toNat + 256 * r₁.toNat < 8 ∨ len < r₀.toNat + 256 * r₁.toNat
    · rw [if_pos (by tauto), if_pos (by tauto)]
      rfl
    by_cases hname : r₀.toNat + 256 * r₁.toNat - 8 < n.toNat
    · rw [if_pos hname, ite_self, ite_self]
      rfl
    have hwalk : ¬ (r₀.toNat + 256 * r₁.toNat = 0 ∨ r₀.toNat + 256 * r₁.toNat < 8 ∨
        false = true ∧ (r₀.toNat + 256 * r₁.toNat) % 4 ≠ 0 ∨ len < r₀.toNat + 256 * r₁.toNat) := by simpa using hbad
    rw [if_neg hname, if_neg hwalk]
    change _ = ite _ _ _
    by_cases haligned : (r₀.toNat + 256 * r₁.toNat) % 4 = 0
    · rw [if_neg (by tauto), if_pos (by simpa [DirRecord.aligned] using haligned)]
    · rw [if_pos (by simp [haligned]), if_neg (by simpa [DirRecord.aligned] using haligned)]
  · rfl

/-- A listing comes to its end if the names that it does not leave out are text, and reports the records with these
names. -/
theorem listLoop_eq_ok : ∀ (fuel : Nat) (data : List UInt8) (entries : List (Name × Nat)),
    listLoop fuel data = .ok entries ↔
    ∃ records, walk fuel data = .ok records ∧ (∀ r ∈ records, r.listed = true → validUtf8 r.name = true) ∧
      entries = (records.filter DirRecord.listed).map fun r => (r.name, r.ino) := by
  intro fuel
  induction fuel with
  | zero =>
    intro data entries
    constructor
    · intro h
      cases h
      exact ⟨[], rfl, by simp, rfl⟩
    · rintro ⟨records, hwalk, -, rfl⟩
      cases hwalk
      rfl
  | succ fuel ih =>
    intro data entries
    rw [listLoop, walk, bind_eq_ok]
    simp only [bind_eq_ok]
    constructor
    · rintro ⟨head, hhead, h⟩
      cases head with
      | none =>
        cases h
        exact ⟨[], ⟨none, hhead, rfl⟩, by simp, rfl⟩
      | some r =>
        dsimp only at h
        split at h
        case isTrue hskip =>
          have hlisted : ¬r.listed = true := by simpa [DirRecord.listed, or_iff_not_imp_left] using hskip
          obtain ⟨rest, hwalk, hvalid, hrest⟩ := (ih _ _).1 h
          refine ⟨r :: rest, ⟨some r, hhead, bind_eq_ok.2 ⟨rest, hwalk, rfl⟩⟩, ?_, ?_⟩
          · exact List.forall_mem_cons.2 ⟨fun hr => absurd hr hlisted, hvalid⟩
          · rw [List.filter_cons_of_neg hlisted]
            exact hrest
        case isFalse hskip =>
          split at h
          · cases h
          case isFalse hvalid =>
            obtain ⟨tail, htail, h⟩ := bind_eq_ok.1 h
            cases h
            obtain ⟨rest, hwalk, hrest, rfl⟩ := (ih _ _).1 htail
            refine ⟨r :: rest, ⟨some r, hhead, bind_eq_ok.2 ⟨rest, hwalk, rfl⟩⟩, ?_, ?_⟩
            · exact List.forall_mem_cons.2 ⟨fun _ => Bool.eq_true_of_not_eq_false hvalid, hrest⟩
            · rw [List.filter_cons_of_pos (by simpa [DirRecord.listed, not_or] using hskip)]
              rfl
    · rintro ⟨records, ⟨head, hhead, h⟩, hvalid, rfl⟩
      refine ⟨head, hhead, ?_⟩
      cases head with
      | none =>
        cases h
        rfl
      | some r =>
        obtain ⟨rest, hwalk, h⟩ := bind_eq_ok.1 h
        cases h
        rw [List.forall_mem_cons] at hvalid
        have hrest := (ih _ _).2 ⟨rest, hwalk, hvalid.2, rfl⟩
        dsimp only
        split
        case isTrue hskip =>
          rw [List.filter_cons_of_neg (by simpa [DirRecord.listed, or_iff_not_imp_left] using hskip)]
          exact hrest
        case isFalse hskip =>
          have hlisted : r.listed = true := by simpa [DirRecord.listed, not_or] using hskip
          rw [if_neg (by simp [hvalid.1 hlisted]), List.filter_cons_of_pos hlisted]
          exact bind_eq_ok.2 ⟨_, hrest, rfl⟩

theorem lookupLoop_ok : ∀ (fuel : Nat) (data : List UInt8) (records : List DirRecord), walk fuel data = .ok records →
    ∀ child, lookupLoop name fuel data = .ok child ↔
      ∃ r, (records.takeWhile DirRecord.aligned).find? (DirRecord.answers name) = some r ∧ r.ino = child := by
  intro fuel
  induction fuel with
  | zero =>
    intro data records h child
    cases h
    simp [lookupLoop]
  | succ fuel ih =>
    intro data records h child
    obtain ⟨head, hhead, h⟩ := bind_eq_ok.1 h
    rw [lookupLoop, dirRecord_true, hhead]
    cases head with
    | none =>
      cases h
      simp [bind, Except.bind]
    | some r =>
      obtain ⟨rest, hwalk, h⟩ := bind_eq_ok.1 h
      cases h
      by_cases haligned : r.aligned = true
      · rw [List.takeWhile_cons_of_pos haligned]
        simp only [bind, Except.bind, haligned, if_true]
        by_cases hanswer : r.ino ≠ 0 ∧ r.name = name
        · rw [if_pos hanswer, List.find?_cons_of_pos (by simpa [DirRecord.answers] using hanswer)]
          simp
        · rw [if_neg hanswer, List.find?_cons_of_neg (by simpa [DirRecord.answers] using hanswer)]
          exact ih _ _ hwalk child
      · rw [List.takeWhile_cons_of_neg haligned]
        simp [bind, Except.bind, haligned]

theorem inodeInfo_ino {info : Ext4NodeInfo} (h : fs.inodeInfo ino = .ok info) : info.ino = ino := by
  obtain ⟨inode, -, h⟩ := bind_eq_ok.1 h
  split at h <;> cases h <;> rfl

theorem forall₂_mem {α β : Type} {R : α → β → Prop} {l : List α} {m : List β} (h : List.Forall₂ R l m) :
    (∀ a ∈ l, ∃ b ∈ m, R a b) ∧ ∀ b ∈ m, ∃ a ∈ l, R a b := by
  induction h with
  | nil => simp
  | @cons a b l m hab _ ih =>
    refine ⟨List.forall_mem_cons.2 ⟨⟨b, by simp, hab⟩, fun a' ha' => ?_⟩,
      List.forall_mem_cons.2 ⟨⟨a, by simp, hab⟩, fun b' hb' => ?_⟩⟩
    · obtain ⟨b', hb', hr⟩ := ih.1 a' ha'
      exact ⟨b', List.mem_cons_of_mem _ hb', hr⟩
    · obtain ⟨a', ha', hr⟩ := ih.2 b' hb'
      exact ⟨a', List.mem_cons_of_mem _ ha', hr⟩

theorem mapM_info : ∀ (entries : List (Name × Nat)) (list : List (Name × Ext4NodeInfo)),
    (entries.mapM fun entry => do
      let info ← fs.inodeInfo entry.2
      pure (entry.1, info)) = .ok list ↔
    List.Forall₂ (fun entry item => item.1 = entry.1 ∧ fs.inodeInfo entry.2 = .ok item.2) entries list := by
  intro entries
  induction entries with
  | nil =>
    intro list
    rw [List.mapM_nil, List.forall₂_nil_left_iff]
    exact ⟨fun h => by cases h; rfl, fun h => by rw [h]; rfl⟩
  | cons entry entries ih =>
    intro list
    rw [List.mapM_cons, List.forall₂_cons_left_iff, bind_eq_ok]
    constructor
    · rintro ⟨item, hitem, h⟩
      obtain ⟨info, hinfo, hpair⟩ := bind_eq_ok.1 hitem
      obtain ⟨rest, hrest, h⟩ := bind_eq_ok.1 h
      cases hpair
      cases h
      exact ⟨_, rest, ⟨rfl, hinfo⟩, (ih rest).1 hrest, rfl⟩
    · rintro ⟨⟨_, info⟩, rest, ⟨rfl, hinfo⟩, hrest, rfl⟩
      exact ⟨_, bind_eq_ok.2 ⟨info, hinfo, rfl⟩, bind_eq_ok.2 ⟨rest, (ih rest).2 hrest, rfl⟩⟩

/-! ### Directories -/

def Ext4FileSystem.entries (fs : Ext4FileSystem) (ino : Nat) : Except Ext4Error (List (Name × Nat)) := do
  let data ← fs.directoryBytes ino
  listLoop data.length data

theorem listDirectoryInfo_eq_ok {list : List (Name × Ext4NodeInfo)} :
    fs.listDirectoryInfo ino = .ok list ↔ ∃ entries, fs.entries ino = .ok entries ∧
      List.Forall₂ (fun entry item => item.1 = entry.1 ∧ fs.inodeInfo entry.2 = .ok item.2) entries list := by
  constructor
  · intro h
    obtain ⟨data, hdata, h⟩ := bind_eq_ok.1 h
    obtain ⟨entries, hentries, h⟩ := bind_eq_ok.1 h
    exact ⟨entries, bind_eq_ok.2 ⟨data, hdata, hentries⟩, (mapM_info entries list).1 h⟩
  · rintro ⟨entries, h, hall⟩
    obtain ⟨data, hdata, hentries⟩ := bind_eq_ok.1 h
    exact bind_eq_ok.2 ⟨data, hdata, bind_eq_ok.2 ⟨entries, hentries, (mapM_info entries list).2 hall⟩⟩

theorem entries_eq_ok {entries : List (Name × Nat)} : fs.entries ino = .ok entries ↔
    ∃ records, fs.records ino = .ok records ∧ (∀ r ∈ records, r.listed = true → validUtf8 r.name = true) ∧
      entries = (records.filter DirRecord.listed).map fun r => (r.name, r.ino) := by
  constructor
  · intro h
    obtain ⟨data, hdata, hentries⟩ := bind_eq_ok.1 h
    obtain ⟨records, hwalk, hrest⟩ := (listLoop_eq_ok _ _ _).1 hentries
    exact ⟨records, bind_eq_ok.2 ⟨data, hdata, hwalk⟩, hrest⟩
  · rintro ⟨records, h, hrest⟩
    obtain ⟨data, hdata, hwalk⟩ := bind_eq_ok.1 h
    exact bind_eq_ok.2 ⟨data, hdata, (listLoop_eq_ok _ _ _).2 ⟨records, hwalk, hrest⟩⟩

structure Seen (fs : Ext4FileSystem) (ino : Nat) (records : List DirRecord) (list : List (Name × Ext4NodeInfo)) : Prop where
  item : ∀ item ∈ list, ∃ r ∈ records, r.listed ∧ item.1 = r.name ∧ item.2.ino = r.ino
  listed : ∀ r ∈ records, r.listed → ∃ item ∈ list, item.1 = r.name ∧ item.2.ino = r.ino
  lookup : ∀ name child, fs.lookupChildIno ino name = .ok child ↔
    ∃ r, (records.takeWhile DirRecord.aligned).find? (DirRecord.answers name) = some r ∧ r.ino = child

theorem listDirectoryInfo_seen {list : List (Name × Ext4NodeInfo)} (h : fs.listDirectoryInfo ino = .ok list) :
    ∃ records, fs.records ino = .ok records ∧ Seen fs ino records list := by
  obtain ⟨entries, h, hall⟩ := listDirectoryInfo_eq_ok.1 h
  obtain ⟨data, hdata, hentries⟩ := bind_eq_ok.1 h
  obtain ⟨records, hwalk, -, rfl⟩ := (listLoop_eq_ok _ _ _).1 hentries
  refine ⟨records, bind_eq_ok.2 ⟨data, hdata, hwalk⟩, ?_, ?_, ?_⟩
  · intro item hitem
    obtain ⟨entry, hentry, hname, hinfo⟩ := (forall₂_mem hall).2 item hitem
    obtain ⟨r, hr, rfl⟩ := List.mem_map.1 hentry
    obtain ⟨hr, hlisted⟩ := List.mem_filter.1 hr
    exact ⟨r, hr, hlisted, hname, inodeInfo_ino hinfo⟩
  · intro r hr hlisted
    obtain ⟨item, hitem, hname, hinfo⟩ := (forall₂_mem hall).1 (r.name, r.ino)
      (List.mem_map.2 ⟨r, List.mem_filter.2 ⟨hr, hlisted⟩, rfl⟩)
    exact ⟨item, hitem, hname, inodeInfo_ino hinfo⟩
  · intro name child
    rw [← lookupLoop_ok _ _ _ hwalk child]
    constructor
    · intro h
      obtain ⟨data', hdata', h⟩ := bind_eq_ok.1 h
      rw [hdata] at hdata'
      cases hdata'
      exact h
    · exact fun h => bind_eq_ok.2 ⟨data, hdata, h⟩

/-- A directory whose listing and lookups agree. The last part asks of a directory in which entries of unsupported types are
the only ones with unreadable inodes that the others are listed. -/
structure Agrees (fs : Ext4FileSystem) (ino : Nat) : Prop where
  listed_found : ∀ list, fs.listDirectoryInfo ino = .ok list → ∀ item ∈ list, fs.lookupChildIno ino item.1 = .ok item.2.ino
  found_listed : ∀ list, fs.listDirectoryInfo ino = .ok list → ∀ name child, validUtf8 name → name ≠ [dot] →
    name ≠ [dot, dot] →
    fs.lookupChildIno ino name = .ok child → ∃ item ∈ list, item.1 = name
  unsupported_alone : ∀ entries, fs.entries ino = .ok entries →
    (∀ entry ∈ entries, (∃ info, fs.inodeInfo entry.2 = .ok info) ∨ fs.inodeInfo entry.2 = .error .unsupported) →
    ∀ entry ∈ entries, ∀ info, fs.inodeInfo entry.2 = .ok info →
      ∃ list, fs.listDirectoryInfo ino = .ok list ∧ (entry.1, info) ∈ list

/-- Records on which the two walkers agree: one inode per name, each listed name in front of the first unaligned record, and
there no slash and no zero in a name. -/
structure Uniform (records : List DirRecord) : Prop where
  same : ∀ r ∈ records, ∀ r' ∈ records, r.listed → r'.listed → r.name = r'.name → r.ino = r'.ino
  reached : ∀ r ∈ records, r.listed → ∃ r' ∈ records.takeWhile DirRecord.aligned, r'.listed ∧ r'.name = r.name
  plain : ∀ r ∈ records.takeWhile DirRecord.aligned, r.ino ≠ 0 → validUtf8 r.name → r.name ≠ [dot] → r.name ≠ [dot, dot] →
    0 ∉ r.name ∧ slash ∉ r.name

theorem DirRecord.listed_iff {r : DirRecord} : r.listed ↔ r.ino ≠ 0 ∧ ¬ skipped r.name := by simp [listed]

theorem find_answers {name : Name} {l : List DirRecord} {r : DirRecord} (h : l.find? (DirRecord.answers name) = some r) :
    r ∈ l ∧ r.ino ≠ 0 ∧ r.name = name :=
  ⟨List.mem_of_find?_eq_some h, by simpa [DirRecord.answers] using List.find?_some h⟩

theorem exists_answer {l : List DirRecord} {r : DirRecord} (hr : r ∈ l) (hino : r.ino ≠ 0) :
    ∃ r', l.find? (DirRecord.answers r.name) = some r' :=
  Option.isSome_iff_exists.1 (List.find?_isSome.2 ⟨r, hr, by simp [DirRecord.answers, hino]⟩)

section

variable {records : List DirRecord} {list : List (Name × Ext4NodeInfo)}

theorem Seen.found (hs : Seen fs ino records list) (hu : Uniform records) :
    ∀ item ∈ list, fs.lookupChildIno ino item.1 = .ok item.2.ino := by
  intro item hitem
  obtain ⟨r, hr, hlisted, hname, hino⟩ := hs.item item hitem
  obtain ⟨r₁, hr₁, hlisted₁, hname₁⟩ := hu.reached r hr hlisted
  obtain ⟨r₂, hfind⟩ := exists_answer hr₁ (DirRecord.listed_iff.1 hlisted₁).1
  obtain ⟨hr₂, hino₂, hname₂⟩ := find_answers hfind
  have hlisted₂ : r₂.listed := DirRecord.listed_iff.2 ⟨hino₂, by rw [hname₂]; exact (DirRecord.listed_iff.1 hlisted₁).2⟩
  rw [hs.lookup, hname, ← hname₁, hino]
  exact ⟨r₂, hfind, hu.same r₂ ((List.takeWhile_subset _) hr₂) r hr hlisted₂ hlisted (hname₂.trans hname₁)⟩

theorem Seen.listed_of_found (hs : Seen fs ino records list) (hu : Uniform records) {child : Nat} (hutf8 : validUtf8 name)
    (hdot : name ≠ [dot]) (hdots : name ≠ [dot, dot]) (h : fs.lookupChildIno ino name = .ok child) :
    ∃ item ∈ list, item.1 = name := by
  obtain ⟨r, hfind, -⟩ := (hs.lookup name child).1 h
  obtain ⟨hr, hino, rfl⟩ := find_answers hfind
  obtain ⟨hzero, hslash⟩ := hu.plain r hr hino hutf8 hdot hdots
  have hlisted : r.listed := DirRecord.listed_iff.2 ⟨hino, by rintro (h | h | h | h) <;> contradiction⟩
  obtain ⟨item, hitem, hname, -⟩ := hs.listed r ((List.takeWhile_subset _) hr) hlisted
  exact ⟨item, hitem, hname⟩

theorem Seen.uniform (hs : Seen fs ino records list)
    (hfound : ∀ item ∈ list, fs.lookupChildIno ino item.1 = .ok item.2.ino)
    (hlist : ∀ name child, validUtf8 name → name ≠ [dot] → name ≠ [dot, dot] → fs.lookupChildIno ino name = .ok child →
      ∃ item ∈ list, item.1 = name) : Uniform records := by
  have hlookup : ∀ r ∈ records, r.listed → fs.lookupChildIno ino r.name = .ok r.ino := by
    intro r hr hlisted
    obtain ⟨item, hitem, hname, hino⟩ := hs.listed r hr hlisted
    rw [← hname, ← hino]
    exact hfound item hitem
  refine ⟨?_, ?_, ?_⟩
  · intro r hr r' hr' hl hl' hname
    have h := hlookup r hr hl
    rw [hname, hlookup r' hr' hl'] at h
    exact (Except.ok.inj h).symm
  · intro r hr hl
    obtain ⟨r', hfind, -⟩ := (hs.lookup _ _).1 (hlookup r hr hl)
    obtain ⟨hr', hino', hname'⟩ := find_answers hfind
    exact ⟨r', hr', DirRecord.listed_iff.2 ⟨hino', by rw [hname']; exact (DirRecord.listed_iff.1 hl).2⟩, hname'⟩
  · intro r hr hino hutf8 hdot hdots
    obtain ⟨r', hfind⟩ := exists_answer hr hino
    obtain ⟨item, hitem, hname⟩ := hlist _ _ hutf8 hdot hdots ((hs.lookup _ _).2 ⟨r', hfind, rfl⟩)
    obtain ⟨r₁, -, hlisted, hname₁, -⟩ := hs.item item hitem
    have hskip := (DirRecord.listed_iff.1 hlisted).2
    rw [← hname₁, hname] at hskip
    exact ⟨fun h => hskip (.inr (.inr (.inl h))), fun h => hskip (.inr (.inr (.inr h)))⟩

end

theorem exists_infos : ∀ entries : List (Name × Nat), (∀ entry ∈ entries, ∃ info, fs.inodeInfo entry.2 = .ok info) →
    ∃ list : List (Name × Ext4NodeInfo),
      List.Forall₂ (fun entry item => item.1 = entry.1 ∧ fs.inodeInfo entry.2 = .ok item.2) entries list := by
  intro entries
  induction entries with
  | nil => exact fun _ => ⟨[], .nil⟩
  | cons entry entries ih =>
    intro h
    obtain ⟨info, hinfo⟩ := h entry (List.mem_cons_self ..)
    obtain ⟨list, hlist⟩ := ih fun e he => h e (List.mem_cons_of_mem _ he)
    exact ⟨(entry.1, info) :: list, .cons ⟨rfl, hinfo⟩ hlist⟩

/-- A record that the listing leaves out, or whose name is text and whose inode can be read. -/
def DirRecord.Legible (fs : Ext4FileSystem) (r : DirRecord) : Prop :=
  r.listed = true → validUtf8 r.name = true ∧ ∃ info, fs.inodeInfo r.ino = .ok info

theorem listDirectoryInfo_succeeds {records : List DirRecord} (h : fs.records ino = .ok records) :
    (∃ list, fs.listDirectoryInfo ino = .ok list) ↔ ∀ r ∈ records, r.Legible fs := by
  have hmem {r : DirRecord} (hr : r ∈ records) (hlisted : r.listed = true) :
      (r.name, r.ino) ∈ (records.filter DirRecord.listed).map fun r => (r.name, r.ino) :=
    List.mem_map.2 ⟨r, List.mem_filter.2 ⟨hr, hlisted⟩, rfl⟩
  constructor
  · rintro ⟨list, hlist⟩ r hr hlisted
    obtain ⟨entries, hentries, hall⟩ := listDirectoryInfo_eq_ok.1 hlist
    obtain ⟨records', hrecords, hvalid, rfl⟩ := entries_eq_ok.1 hentries
    cases h.symm.trans hrecords
    obtain ⟨item, -, -, hinfo⟩ := (forall₂_mem hall).1 _ (hmem hr hlisted)
    exact ⟨hvalid r hr hlisted, item.2, hinfo⟩
  · intro hlegible
    have hentries := entries_eq_ok.2 ⟨records, h, fun r hr hlisted => (hlegible r hr hlisted).1, rfl⟩
    have hread : ∀ entry ∈ (records.filter DirRecord.listed).map fun r => (r.name, r.ino),
        ∃ info, fs.inodeInfo entry.2 = .ok info := by
      intro entry hentry
      obtain ⟨r, hr, rfl⟩ := List.mem_map.1 hentry
      obtain ⟨hr, hlisted⟩ := List.mem_filter.1 hr
      exact (hlegible r hr hlisted).2
    obtain ⟨list, hlist⟩ := exists_infos _ hread
    exact ⟨list, listDirectoryInfo_eq_ok.2 ⟨_, hentries, hlist⟩⟩

/-- Listing and looking up agree on a directory exactly if records that are all legible are such that both read them alike,
and entries of supported and of unsupported types do not stand next to each other. -/
theorem agrees_iff (fs : Ext4FileSystem) (ino : Nat) : Agrees fs ino ↔
    (∀ records, fs.records ino = .ok records → (∀ r ∈ records, r.Legible fs) → Uniform records) ∧
    ∀ entries, fs.entries ino = .ok entries →
      (∀ entry ∈ entries, (∃ info, fs.inodeInfo entry.2 = .ok info) ∨ fs.inodeInfo entry.2 = .error .unsupported) →
      (∀ entry ∈ entries, ∃ info, fs.inodeInfo entry.2 = .ok info) ∨
        ∀ entry ∈ entries, fs.inodeInfo entry.2 = .error .unsupported := by
  constructor
  · intro h
    refine ⟨?_, ?_⟩
    · intro records hrecords hlegible
      obtain ⟨list, hlist⟩ := (listDirectoryInfo_succeeds hrecords).2 hlegible
      obtain ⟨records', hrecords', hs⟩ := listDirectoryInfo_seen hlist
      cases hrecords.symm.trans hrecords'
      exact hs.uniform (h.listed_found list hlist) (h.found_listed list hlist)
    · intro entries hentries hall
      by_cases hsome : ∃ entry ∈ entries, ∃ info, fs.inodeInfo entry.2 = .ok info
      · obtain ⟨entry, hentry, info, hinfo⟩ := hsome
        obtain ⟨list, hlist, -⟩ := h.unsupported_alone entries hentries hall entry hentry info hinfo
        obtain ⟨entries', hentries', hread⟩ := listDirectoryInfo_eq_ok.1 hlist
        rw [hentries] at hentries'
        cases hentries'
        left
        intro e he
        obtain ⟨item, -, -, hinfo⟩ := (forall₂_mem hread).1 e he
        exact ⟨item.2, hinfo⟩
      · right
        intro e he
        exact (hall e he).resolve_left fun hinfo => hsome ⟨e, he, hinfo⟩
  · rintro ⟨huniform, hsupported⟩
    have hagree {list : List (Name × Ext4NodeInfo)} (hlist : fs.listDirectoryInfo ino = .ok list) :
        ∃ records, Seen fs ino records list ∧ Uniform records := by
      obtain ⟨records, hrecords, hs⟩ := listDirectoryInfo_seen hlist
      exact ⟨records, hs, huniform records hrecords ((listDirectoryInfo_succeeds hrecords).1 ⟨list, hlist⟩)⟩
    refine ⟨?_, ?_, ?_⟩
    · intro list hlist
      obtain ⟨records, hs, hu⟩ := hagree hlist
      exact hs.found hu
    · intro list hlist name child hutf8 hdot hdots hfound
      obtain ⟨records, hs, hu⟩ := hagree hlist
      exact hs.listed_of_found hu hutf8 hdot hdots hfound
    · intro entries hentries hall entry hentry info hinfo
      rcases hsupported entries hentries hall with hread | hnone
      · obtain ⟨list, hlist⟩ := exists_infos entries hread
        refine ⟨list, listDirectoryInfo_eq_ok.2 ⟨entries, hentries, hlist⟩, ?_⟩
        obtain ⟨item, hitem, hname, hitemInfo⟩ := (forall₂_mem hlist).1 entry hentry
        rw [hinfo] at hitemInfo
        cases hitemInfo
        rwa [← hname]
      · rw [hnone entry hentry] at hinfo
        cases hinfo

def volumeOf (data : List UInt8) : Ext4FileSystem where
  readInode ino := .ok { mode := if ino = 2 then 0o040755 else if ino = 11 then 0o100644 else 0o010644, size := 0 }
  readInodeBytes _ := .ok data
  readSymlink _ := .error .badInode

/-- A pipe next to a file makes the whole directory unlistable; a file behind a record of odd length is listed but not
found. -/
theorem listing_and_lookup_differ :
    ¬Agrees (volumeOf [11, 0, 0, 0, 12, 0, 1, 1, 97, 0, 0, 0, 12, 0, 0, 0, 12, 0, 1, 5, 98, 0, 0, 0]) 2 ∧
    ¬Agrees (volumeOf [0, 0, 0, 0, 9, 0, 1, 1, 120, 11, 0, 0, 0, 12, 0, 1, 1, 97, 0, 0, 0]) 2 := by
  let file : Ext4NodeInfo := { ino := 11, mode := 0o100644, size := 0, kind := .regular }
  constructor
  · intro h
    have hentries : (volumeOf [11, 0, 0, 0, 12, 0, 1, 1, 97, 0, 0, 0, 12, 0, 0, 0, 12, 0, 1, 5, 98, 0, 0, 0]).entries 2 =
        .ok [([97], 11), ([98], 12)] := by decide +kernel
    have hfails : (volumeOf [11, 0, 0, 0, 12, 0, 1, 1, 97, 0, 0, 0, 12, 0, 0, 0, 12, 0, 1, 5, 98, 0, 0, 0]
        ).listDirectoryInfo 2 = .error .unsupported := by decide +kernel
    obtain ⟨list, hlist, -⟩ := h.unsupported_alone _ hentries
      (List.forall_mem_cons.2 ⟨.inl ⟨file, rfl⟩, List.forall_mem_cons.2 ⟨.inr rfl, by simp⟩⟩) _ List.mem_cons_self file rfl
    cases hfails.symm.trans hlist
  · intro h
    have hlist : (volumeOf [0, 0, 0, 0, 9, 0, 1, 1, 120, 11, 0, 0, 0, 12, 0, 1, 1, 97, 0, 0, 0]).listDirectoryInfo 2 =
        .ok [([97], file)] := by decide +kernel
    have hfails : (volumeOf [0, 0, 0, 0, 9, 0, 1, 1, 120, 11, 0, 0, 0, 12, 0, 1, 1, 97, 0, 0, 0]).lookupChildIno 2 [97] =
        .error .badDirectory := by decide +kernel
    cases hfails.symm.trans (h.listed_found _ hlist _ List.mem_cons_self)

end SudoOS.Ext4
