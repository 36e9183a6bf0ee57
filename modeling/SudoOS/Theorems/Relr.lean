import SudoOS.Kernel.Relr
import SudoOS.Theorems.UserMemory

/-! What a RELR table denotes, and that the loader patches these words, each as often as it is denoted. -/

namespace SudoOS.Elf

open Program

variable {memory later : UserMemory} {loadBias cursor applied : Nat} {addresses : List Nat}

/-- The words that a bitmap selects: bit zero only tells that it is one. -/
def selected (base entry : Nat) (bits : List Nat) : List Nat :=
  (bits.filter fun i => entry.testBit (i + 1)).map fun i => base + 8 * i

/-- The addresses that a table denotes. An even entry is an address; an odd one is a bitmap of the 63 words that follow the
last one. -/
def denoted (loadBias : Nat) : List Nat → Nat → List Nat
  | [], _ => []
  | entry :: rest, base =>
    if entry % 2 = 0 then (entry + loadBias) :: denoted loadBias rest (entry + loadBias + 8)
    else selected base entry (List.range 63) ++ denoted loadBias rest (base + 8 * 63)

/-- Words are patched one after the other. -/
inductive Patched (loadBias : Nat) : List Nat → UserMemory → UserMemory → Prop
  | nil {memory : UserMemory} : Patched loadBias [] memory memory
  | cons {memory later : UserMemory} {address : Nat} {addresses : List Nat} :
      address % 8 = 0 → memory.word address + loadBias < usizeLimit →
      Patched loadBias addresses (memory.store address (LittleEndian.bytes 8 (memory.word address + loadBias))) later →
      Patched loadBias (address :: addresses) memory later

theorem Patched.append {addresses' : List Nat} {last : UserMemory} (h : Patched loadBias addresses memory later)
    (h' : Patched loadBias addresses' later last) : Patched loadBias (addresses ++ addresses') memory last := by
  induction h with
  | nil => exact h'
  | cons haligned hlt _ ih => exact .cons haligned hlt (ih h')

/-! ### The loops -/

theorem applyOne_spec {address : Nat} : wp (applyOneLoongarchRelr address loadBias) memory
    (fun _ later => Patched loadBias [address] memory later) fun _ _ => True := by
  simp only [applyOneLoongarchRelr, loaderReadU64Physical, loaderCopyToUserPhysical, wp_bind, wp_ensure, wp_get, wp_okOr,
    wp_pure, wp_set,
    implies_true, and_true]
  intro haligned _ relocated hrelocated _
  obtain ⟨hlt, rfl⟩ := checkedAdd_eq_some.1 hrelocated
  exact .cons haligned hlt .nil

theorem testBit_bitmap {entry bit : Nat} : entry / 2 &&& (1 <<< bit) = 0 ↔ entry.testBit (bit + 1) = false := by
  rw [Nat.shiftLeft_eq, Nat.one_mul, Nat.testBit_add_one, Nat.and_two_pow]
  cases (entry / 2).testBit bit <;> simp

theorem applyBitmap_spec {entry : Nat} {bits : List Nat} : wp (applyBitmap loadBias cursor (entry / 2) bits applied) memory
    (fun n later => n = applied + (selected cursor entry bits).length ∧
      Patched loadBias (selected cursor entry bits) memory later)
    fun _ _ => True := by
  induction bits generalizing applied memory with
  | nil => exact wp_pure.2 ⟨rfl, .nil⟩
  | cons bit rest ih =>
    rw [applyBitmap, wp_ite]
    refine ⟨fun hzero => ?_, fun hone => ?_⟩
    · have hskip : selected cursor entry (bit :: rest) = selected cursor entry rest := by
        rw [selected, List.filter_cons_of_neg (by simpa using testBit_bitmap.1 hzero), ← selected]
      rw [hskip]
      exact ih
    · have htake : selected cursor entry (bit :: rest) = (cursor + 8 * bit) :: selected cursor entry rest := by
        rw [testBit_bitmap, Bool.not_eq_false] at hone
        rw [selected, List.filter_cons_of_pos (by simpa using hone), List.map_cons, ← selected]
      rw [htake]
      simp only [wp_bind, wp_okOr, implies_true, and_true]
      intro address haddress
      obtain ⟨-, rfl⟩ := checkedAdd_eq_some.1 haddress
      refine applyOne_spec.mono ?_ fun _ _ h => h
      intro _ next hnext
      rw [Nat.mul_comm] at hnext
      refine ih.mono ?_ fun _ _ h => h
      rintro n later ⟨rfl, hrest⟩
      exact ⟨by rw [List.length_cons]; omega, hnext.append hrest⟩

def entryValues (table : List (List (BitVec 8))) : List Nat := table.map fun encoded => LittleEndian.value (encoded.take 8)

theorem applyEntries_spec {table : List (List (BitVec 8))} {cursor : Option Nat} :
    wp (applyEntries loadBias table cursor applied) memory
    (fun n later => ∀ base, (∀ c, cursor = some c → base = c) →
      n = applied + (denoted loadBias (entryValues table) base).length ∧
      Patched loadBias (denoted loadBias (entryValues table) base) memory later)
    fun _ _ => True := by
  induction table generalizing cursor applied memory with
  | nil => exact wp_pure.2 fun _ _ => ⟨rfl, .nil⟩
  | cons encoded rest ih =>
    simp only [applyEntries, readWord, read, wp_bind, wp_okOr, wp_ite, implies_true, and_true]
    intro entry hentry
    obtain ⟨bytes, hbytes, rfl⟩ := Option.map_eq_some_iff.1 hentry
    unfold slice at hbytes
    split_ifs at hbytes
    cases hbytes
    have hvalues : entryValues (encoded :: rest) = LittleEndian.value (encoded.take 8) :: entryValues rest := rfl
    rw [List.drop_zero, Nat.zero_add, Nat.sub_zero]
    refine ⟨fun heven => ?_, fun hodd => ?_⟩
    · intro start hstart
      obtain ⟨-, rfl⟩ := checkedAdd_eq_some.1 hstart
      refine applyOne_spec.mono ?_ fun _ _ h => h
      intro _ next hnext base' hbase'
      obtain ⟨-, rfl⟩ := checkedAdd_eq_some.1 hbase'
      refine ih.mono ?_ fun _ _ h => h
      intro n later hrest base _
      obtain ⟨rfl, hpatched⟩ := hrest _ fun c hc => (Option.some.inj hc)
      rw [hvalues, denoted, if_pos heven]
      exact ⟨by rw [List.length_cons]; omega, hnext.append hpatched⟩
    · intro base hcursor
      refine applyBitmap_spec.mono ?_ fun _ _ h => h
      rintro n next ⟨rfl, hnext⟩ base' hbase'
      obtain ⟨-, rfl⟩ := checkedAdd_eq_some.1 hbase'
      refine ih.mono ?_ fun _ _ h => h
      intro n later hrest base₀ hbase₀
      obtain rfl := hbase₀ base hcursor
      obtain ⟨rfl, hpatched⟩ := hrest _ fun c hc => Option.some.inj hc
      rw [hvalues, denoted, if_neg hodd, Nat.mul_comm 8 63]
      exact ⟨by rw [List.length_append]; omega, hnext.append hpatched⟩

/-! ### Each word as often as it is denoted -/

/-- Each of the words has had the bias added as many times as it is listed, and nothing else has changed. -/
structure Relocated (loadBias : Nat) (addresses : List Nat) (memory later : UserMemory) : Prop where
  words : ∀ address ∈ addresses, later.word address = memory.word address + addresses.count address * loadBias
  others : ∀ a, (∀ address ∈ addresses, a < address ∨ address + 8 ≤ a) → later.bytes a = memory.bytes a

theorem word_congr {address : Nat} (h : ∀ i < 8, later.bytes (address + i) = memory.bytes (address + i)) :
    later.word address = memory.word address := by
  rw [UserMemory.word, UserMemory.word]
  exact congrArg _ (List.map_congr_left fun i hi => h i (List.mem_range.1 hi))

theorem word_store {address value : Nat} (hlt : value < usizeLimit) :
    (memory.store address (LittleEndian.bytes 8 value)).word address = value := by
  have hbytes : (List.range 8).map (fun i => (memory.store address (LittleEndian.bytes 8 value)).bytes (address + i)) =
      LittleEndian.bytes 8 value := by
    refine List.ext_getElem (by simp) fun i hi hi' => ?_
    rw [List.getElem_map, List.getElem_range, UserMemory.store]
    dsimp only
    rw [if_pos ⟨Nat.le_add_right _ _, by omega⟩, Nat.add_sub_cancel_left, List.getD_eq_getElem _ _ hi']
  rw [UserMemory.word, hbytes, LittleEndian.value_bytes]
  exact Nat.mod_eq_of_lt hlt

theorem bytes_store {address value a : Nat} (h : a < address ∨ address + 8 ≤ a) :
    (memory.store address (LittleEndian.bytes 8 value)).bytes a = memory.bytes a :=
  if_neg (by rw [LittleEndian.length_bytes]; omega)

/-- Words at different multiples of eight lie apart. -/
theorem word_store_of_ne {address value place : Nat} (hne : place ≠ address) (haligned : address % 8 = 0)
    (hplace : place % 8 = 0) : (memory.store address (LittleEndian.bytes 8 value)).word place = memory.word place :=
  word_congr fun i hi => bytes_store (by omega)

theorem Patched.words (h : Patched loadBias addresses memory later) :
    (∀ address ∈ addresses, address % 8 = 0) ∧
      ∀ place, place % 8 = 0 → later.word place = memory.word place + addresses.count place * loadBias := by
  induction h with
  | nil => exact ⟨fun _ h => (nomatch h), fun place _ => by simp⟩
  | cons haligned hlt _ ih =>
    refine ⟨List.forall_mem_cons.2 ⟨haligned, ih.1⟩, fun place hplace => ?_⟩
    rw [ih.2 place hplace, List.count_cons]
    split_ifs with heq
    · rw [← eq_of_beq heq, word_store hlt, Nat.add_mul]
      omega
    · rw [word_store_of_ne (fun hne => heq (beq_iff_eq.2 hne.symm)) haligned hplace, Nat.add_zero]

theorem Patched.others (h : Patched loadBias addresses memory later) {a : Nat}
    (ha : ∀ address ∈ addresses, a < address ∨ address + 8 ≤ a) : later.bytes a = memory.bytes a := by
  induction h with
  | nil => rfl
  | cons _ _ _ ih =>
    rw [List.forall_mem_cons] at ha
    rw [ih ha.2, bytes_store ha.1]

theorem Patched.relocated (h : Patched loadBias addresses memory later) : Relocated loadBias addresses memory later :=
  ⟨fun address hmem => h.words.2 address (h.words.1 address hmem), fun _ ha => h.others ha⟩

def FindsTable (image : List (BitVec 8)) (elf : ElfImage) (relrVaddr relrSize relrEnt : Nat) (memory : UserMemory)
    (table : List (List (BitVec 8))) : Prop :=
  relrSize = 0 ∧ table = [] ∨ relrSize ≠ 0 ∧ relrTable image elf relrVaddr relrSize relrEnt memory = .ok table memory

theorem virtualToFileOffset_state {address end_ : Nat} {segments : List LoadSegment} :
    wp (virtualToFileOffset address end_ segments : RelrM Nat) memory (fun _ later => later = memory) fun _ _ => True := by
  induction segments with
  | nil => exact wp_throw.2 trivial
  | cons segment rest ih =>
    simp only [virtualToFileOffset, wp_bind, wp_okOr, wp_ite, implies_true, and_true]
    exact fun _ _ => ⟨trivial, fun _ => ih⟩

theorem relrTable_state {image : List (BitVec 8)} {elf : ElfImage} {relrVaddr relrSize relrEnt : Nat} :
    wp (relrTable image elf relrVaddr relrSize relrEnt) memory (fun _ later => later = memory) fun _ _ => True := by
  simp only [relrTable, wp_bind, wp_ensure, wp_okOr, wp_require, wp_pure, implies_true, and_true]
  intro _ _ _ _ _
  exact virtualToFileOffset_state.mono (fun _ _ h _ _ _ => h) fun _ _ h => h

/-- A table that is accepted changes the words that it denotes and nothing else: the bias is added to each word as often as
the table denotes it, which is once if no word is denoted twice. -/
theorem relr_applied {image : List (BitVec 8)} {elf : ElfImage} {relrVaddr relrSize relrEnt : Nat}
    (h : applyLoongarchRelr image elf relrVaddr relrSize relrEnt memory = .ok applied later) :
    ∃ table, FindsTable image elf relrVaddr relrSize relrEnt memory table ∧
      applied = (denoted elf.loadBias (entryValues table) 0).length ∧
      Relocated elf.loadBias (denoted elf.loadBias (entryValues table) 0) memory later ∧
      ((denoted elf.loadBias (entryValues table) 0).Nodup → ∀ address ∈ denoted elf.loadBias (entryValues table) 0,
        later.word address = memory.word address + elf.loadBias) := by
  have honce : ∀ {addresses}, Relocated elf.loadBias addresses memory later → addresses.Nodup → ∀ address ∈ addresses,
      later.word address = memory.word address + elf.loadBias := fun hall hnodup address hmem => by
    rw [hall.words address hmem, List.count_eq_one_of_mem hnodup hmem, Nat.one_mul]
  by_cases hzero : relrSize = 0
  · rw [applyLoongarchRelr, if_pos hzero] at h
    cases h
    exact ⟨[], .inl ⟨hzero, rfl⟩, rfl, ⟨fun _ h => (nomatch h), fun _ _ => rfl⟩, fun _ _ h => (nomatch h)⟩
  · rw [applyLoongarchRelr, if_neg hzero] at h
    cases htable : relrTable image elf relrVaddr relrSize relrEnt memory with
    | error e t =>
      change EStateM.bind _ _ memory = _ at h
      rw [EStateM.bind, htable] at h
      cases h
    | ok table t =>
      obtain rfl : t = memory := (wp_iff.1 relrTable_state).1 table t htable
      change EStateM.bind _ _ t = _ at h
      rw [EStateM.bind, htable] at h
      have hspec := (wp_iff.1 applyEntries_spec).1 applied later h
      obtain ⟨happlied, hpatched⟩ := hspec 0 fun _ hc => (nomatch hc)
      exact ⟨table, .inr ⟨hzero, htable⟩, by rw [happlied, Nat.zero_add], hpatched.relocated, honce hpatched.relocated⟩

def smallImage (first second : Nat) : List (BitVec 8) := LittleEndian.encode 8 [0, first, second]

/-- An image that is loaded above the user range of RISC-V. -/
def smallElf : ElfImage where
  segments := [⟨0x800000000000, 0x2000, 0, 24⟩]
  kind := .positionIndependent
  entry := 0x800000000000
  loadBias := 0x800000000000

def blank : UserMemory := ⟨fun _ => 0, fun _ => true, fun _ => true⟩

/-- One address, and a bitmap of the two words after it. -/
theorem relr_applied_three : ∃ later, applyLoongarchRelr (smallImage 0x1000 7) smallElf 8 16 8 blank = .ok 3 later ∧
    later.word 0x800000001010 = blank.word 0x800000001010 + 0x800000000000 := by
  have hrun : endsWith (fun n _ => n == 3) (applyLoongarchRelr (smallImage 0x1000 7) smallElf 8 16 8 blank) = true := by
    decide +kernel
  obtain ⟨n, later, hok, hn⟩ := endsWith_eq_true hrun
  obtain rfl := eq_of_beq hn
  refine ⟨later, hok, ?_⟩
  obtain ⟨table, hfinds | hfinds, -, -, honce⟩ := relr_applied hok
  · exact absurd hfinds.1 (by decide)
  · have htable : endsWith (fun table _ => table == [LittleEndian.bytes 8 0x1000, LittleEndian.bytes 8 7])
        (relrTable (smallImage 0x1000 7) smallElf 8 16 8 blank) = true := by decide +kernel
    rw [hfinds.2] at htable
    obtain rfl := eq_of_beq htable
    exact honce (by decide +kernel) _ (by decide +kernel)

/-- A table that names one word twice is accepted, and the bias is added twice. -/
theorem word_relocated_twice : ∃ applied later,
    applyLoongarchRelr (smallImage 0x1000 0x1000) smallElf 8 16 8 blank = .ok applied later ∧
      blank.word 0x800000001000 = 0 ∧ later.word 0x800000001000 = 2 * 0x800000000000 := by
  have hrun : endsWith (fun _ later => later.word 0x800000001000 == 2 * 0x800000000000)
      (applyLoongarchRelr (smallImage 0x1000 0x1000) smallElf 8 16 8 blank) = true := by
    decide +kernel
  obtain ⟨applied, later, hok, hword⟩ := endsWith_eq_true hrun
  exact ⟨applied, later, hok, by decide +kernel, eq_of_beq hword⟩

end SudoOS.Elf
