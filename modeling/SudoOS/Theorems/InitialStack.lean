import SudoOS.Kernel.InitialStack
import SudoOS.Theorems.UserMemory

/-! The initial stack. Each push puts a piece below those that are there, so that all pieces stay apart and keep their
bytes. -/

namespace SudoOS.InitialStack

open Program Elf

variable {memory later : UserMemory} {grants : Grants} {stack : VirtRange} {s t : StackState} {address : Nat}
    {bytes : Bytes}

variable {info : AuxInfo} {piece value : Bytes} {pieces : List (Nat × Bytes)} {start : Nat} {words : List Nat}

/-! ### Pieces -/

def Holds (memory : UserMemory) (address : Nat) (bytes : Bytes) : Prop :=
  ∀ i < bytes.length, memory.bytes (address + i) = bytes.getD i 0

theorem Holds.of_copyToUser (h : memory.copyToUser address bytes = some later) : Holds later address bytes := by
  intro i hi
  rw [UserMemory.copyToUser] at h
  split at h
  · cases h
    rw [UserMemory.store]
    dsimp only
    rw [if_pos (by omega), Nat.add_sub_cancel_left]
  · cases h

theorem Holds.keep {place : Nat} (h : Holds memory place piece) (hcopy : memory.copyToUser address bytes = some later)
    (hapart : address + bytes.length ≤ place ∨ place + piece.length ≤ address) : Holds later place piece := by
  intro i hi
  rw [UserMemory.bytes_copyToUser hcopy (by omega), h i hi]

theorem Holds.append (h : Holds memory address bytes) (h' : Holds memory (address + bytes.length) piece) :
    Holds memory address (bytes ++ piece) := by
  intro i hi
  rw [List.length_append] at hi
  by_cases hlt : i < bytes.length
  · rw [h i hlt, List.getD_append _ _ _ _ hlt]
  · have hrest := h' (i - bytes.length) (by omega)
    rw [show address + bytes.length + (i - bytes.length) = address + i by omega] at hrest
    rw [hrest, List.getD_append_right _ _ _ _ (by omega)]

structure Stacked (stack : VirtRange) (pieces : List (Nat × Bytes)) (memory : UserMemory) (cursor : Nat) : Prop where
  top : cursor ≤ stack.end_
  inside : ∀ p ∈ pieces, cursor ≤ p.1 ∧ p.1 + p.2.length ≤ stack.end_
  apart : pieces.Pairwise fun p q => p.1 + p.2.length ≤ q.1
  held : ∀ p ∈ pieces, Holds memory p.1 p.2

theorem Stacked.push (h : Stacked stack pieces memory s.cursor)
    (hbelow : start + bytes.length ≤ s.cursor) (hheld : Holds later start bytes)
    (hkeep : ∀ place piece, Holds memory place piece → s.cursor ≤ place → Holds later place piece) :
    Stacked stack ((start, bytes) :: pieces) later start where
  top := by
    have := h.top
    omega
  inside := by
    refine List.forall_mem_cons.2 ⟨⟨le_rfl, hbelow.trans h.top⟩, fun p hp => ⟨?_, (h.inside p hp).2⟩⟩
    have := (h.inside p hp).1
    omega
  apart := List.pairwise_cons.2 ⟨fun p hp => hbelow.trans (h.inside p hp).1, h.apart⟩
  held := List.forall_mem_cons.2 ⟨hheld, fun p hp => hkeep _ _ (h.held p hp) (h.inside p hp).1⟩

/-! ### Single pushes -/

structure Ready (grants : Grants) (stack : VirtRange) (memory : UserMemory) : Prop where
  metadata : ∀ n, grants.metadata n = true
  pages : ∀ address, grants.pages address = true
  writable : ∀ a, stack.contains a → memory.writable a = true
  user : stack.end_ ≤ userEnd

structure Loaded (address : Nat) (bytes : Bytes) (s t : StackState) : Prop where
  cursor : t.cursor = s.cursor
  writable : t.memory.writable = s.memory.writable
  held : Holds t.memory address bytes
  keep : ∀ place piece, Holds s.memory place piece → address + bytes.length ≤ place ∨ place + piece.length ≤ address →
    Holds t.memory place piece

theorem loadBytes_spec (stack : VirtRange) : wp (loadBytes grants address bytes) s (fun _ t => Loaded address bytes s t)
    fun _ _ => ¬(Ready grants stack s.memory ∧ stack.start ≤ address ∧ address + bytes.length ≤ stack.end_) := by
  simp only [loadBytes, wp_ite, wp_pure, wp_bind, wp_ensure, wp_get, wp_okOr, wp_set]
  refine ⟨fun hnil => ?_, fun hne => ⟨fun hpages => ⟨fun memory hcopy => ?_, fun hnone => ?_⟩, fun hpages => ?_⟩⟩
  · rw [hnil]
    exact ⟨rfl, rfl, fun i hi => absurd hi (Nat.not_lt_zero _), fun _ _ h _ => h⟩
  · exact ⟨rfl, (UserMemory.rights_copyToUser hcopy).2, .of_copyToUser hcopy, fun _ _ h hapart => h.keep hcopy hapart⟩
  · rintro ⟨hready, hstart, hend⟩
    have hall : ((List.range bytes.length).all fun i => s.memory.writable (address + i)) = true :=
      List.all_eq_true.2 fun i hi => hready.writable _ ⟨by omega, by have := List.mem_range.1 hi; omega⟩
    rw [UserMemory.copyToUser,
      if_pos (by rw [Bool.and_eq_true, decide_eq_true_eq]; exact ⟨hend.trans hready.user, hall⟩)] at hnone
    cases hnone
  · exact fun hready => hpages (hready.1.pages address)

theorem validateStackSpan_spec {length : Nat} : wp (validateStackSpan stack start length) s
    (fun _ t => t = s ∧ (length = 0 ∨ stack.start ≤ start ∧ start + length ≤ stack.end_))
    fun _ _ => ¬(stack.end_ < usizeLimit ∧ stack.start ≤ start ∧ start + length ≤ stack.end_) := by
  simp only [validateStackSpan, wp_ite, wp_pure, wp_bind, wp_ensure, wp_okOr]
  refine ⟨fun hzero => ⟨trivial, .inl hzero⟩, fun hpos => ⟨fun end_ hend => ⟨fun hin => ?_, fun hout => ?_⟩,
    fun hnone => ?_⟩⟩
  · obtain ⟨-, rfl⟩ := checkedAdd_eq_some.1 hend
    exact ⟨trivial, .inr ⟨hin.2.1.1, hin.1⟩⟩
  · obtain ⟨-, rfl⟩ := checkedAdd_eq_some.1 hend
    exact fun hfits => hout ⟨hfits.2.2, ⟨hfits.2.1, by omega⟩, by omega, by omega⟩
  · intro hfits
    rw [checkedAdd, if_pos (by omega)] at hnone
    cases hnone

structure Pushed (stack : VirtRange) (bytes : Bytes) (pieces : List (Nat × Bytes)) (s : StackState) (start : Nat)
    (t : StackState) : Prop where
  ends : start + bytes.length = s.cursor
  cursor : t.cursor = start
  writable : t.memory.writable = s.memory.writable
  start_le : stack.start ≤ start
  stacked : Stacked stack ((start, bytes) :: pieces) t.memory start

structure Fits (grants : Grants) (stack : VirtRange) (length : Nat) (s : StackState) : Prop where
  ready : Ready grants stack s.memory
  room : stack.start + length ≤ s.cursor
  top : s.cursor ≤ stack.end_

theorem userEnd_lt : userEnd < usizeLimit := by decide

/-- The span that each push takes below the cursor. -/
theorem wp_span {length : Nat} {Q : Nat → StackState → Prop} (hs : Stacked stack pieces s.memory s.cursor)
    (hpos : length ≠ 0) (h : ∀ start, start + length = s.cursor → stack.start ≤ start → Q start s) :
    wp (okOr (checkedSub s.cursor length) StackError.invalidStack) s
      (fun start t => wp (validateStackSpan stack start length) t (fun _ u => Q start u) fun _ _ =>
      ¬Fits grants stack length s) fun _ _ => ¬Fits grants stack length s := by
  have htop := hs.top
  have huser := userEnd_lt
  refine wp_okOr.2 ⟨fun start hstart => ?_, fun hnone hfits => ?_⟩
  · unfold checkedSub at hstart
    split_ifs at hstart with hle
    cases hstart
    refine validateStackSpan_spec.mono ?_ ?_
    · rintro _ t ⟨rfl, hspan⟩
      exact h _ (Nat.sub_add_cancel hle) (hspan.resolve_left hpos).1
    · exact fun _ _ hfail hfits => hfail ⟨by have := hfits.ready.user; omega, by have := hfits.room; omega, by omega⟩
  · have := hfits.room
    rw [checkedSub, if_pos (by omega)] at hnone
    cases hnone

theorem pushStackString_spec (hs : Stacked stack pieces s.memory s.cursor) :
    wp (pushStackString grants stack value) s (fun p t => Pushed stack (value ++ [0]) pieces s p t)
      fun _ _ => ¬Fits grants stack (value.length + 1) s := by
  have htop := hs.top
  simp only [pushStackString, wp_bind, wp_get, wp_modify, wp_pure]
  refine wp_okOr.2 ⟨fun total htotal => ?_, fun hnone hfits => ?_⟩
  · obtain ⟨-, rfl⟩ := checkedAdd_eq_some.1 htotal
    refine wp_span hs (Nat.succ_ne_zero _) fun start hends hstart => ?_
    refine (loadBytes_spec stack).mono ?_ fun _ _ hfail hfits => hfail ⟨hfits.ready, hstart, by omega⟩
    intro _ u hu
    refine (loadBytes_spec stack).mono ?_ ?_
    · intro _ v hv
      have hkeep : ∀ place piece, Holds s.memory place piece → s.cursor ≤ place → Holds v.memory place piece := by
        intro place piece hpiece hplace
        refine hv.keep _ _ (hu.keep _ _ hpiece (.inl (by omega))) (.inl ?_)
        rw [List.length_singleton]
        omega
      have hheld : Holds v.memory start (value ++ [0]) := Holds.append (hv.keep _ _ hu.held (.inr le_rfl)) hv.held
      have hlength : start + (value ++ [0]).length = s.cursor := by
        rw [List.length_append, List.length_singleton]
        exact hends
      exact ⟨hlength, rfl, hv.writable.trans hu.writable, hstart, hs.push hlength.le hheld hkeep⟩
    · intro _ _ hfail hfits
      refine hfail ⟨⟨hfits.ready.metadata, hfits.ready.pages, ?_, hfits.ready.user⟩, ?_, ?_⟩
      · rw [hu.writable]
        exact hfits.ready.writable
      · exact hstart.trans (Nat.le_add_right _ _)
      · rw [List.length_singleton]
        omega
  · have huser := userEnd_lt
    have := hfits.room
    have := hfits.ready.user
    rw [checkedAdd, if_pos (by omega)] at hnone
    cases hnone

theorem pushStackBytes_spec (hs : Stacked stack pieces s.memory s.cursor) (hne : bytes ≠ []) :
    wp (pushStackBytes grants stack bytes) s (fun p t => Pushed stack bytes pieces s p t)
      fun _ _ => ¬Fits grants stack bytes.length s := by
  simp only [pushStackBytes, wp_bind, wp_get, wp_modify, wp_pure]
  refine wp_span hs (fun h => hne (List.eq_nil_of_length_eq_zero h)) fun start hends hstart => ?_
  refine (loadBytes_spec stack).mono ?_ fun _ _ hfail hfits => hfail ⟨hfits.ready, hstart, hends.le.trans hs.top⟩
  intro _ u hu
  refine ⟨hends, rfl, hu.writable, hstart, hs.push hends.le hu.held fun place piece hpiece hplace => ?_⟩
  exact hu.keep _ _ hpiece (.inl (hends.le.trans hplace))

/-! ### Lists of strings -/

def stringsLength (values : List Bytes) : Nat := (values.map fun value => value.length + 1).sum

def stringPieces (pointers : List Nat) (values : List Bytes) : List (Nat × Bytes) :=
  List.zipWith (fun pointer value => (pointer, value ++ [0])) pointers values

structure PushedAll (stack : VirtRange) (values : List Bytes) (pieces : List (Nat × Bytes)) (s : StackState)
    (pointers : List Nat) (t : StackState) : Prop where
  length : pointers.length = values.length
  cursor : t.cursor + stringsLength values = s.cursor
  writable : t.memory.writable = s.memory.writable
  stacked : Stacked stack (stringPieces pointers values ++ pieces) t.memory t.cursor

theorem Fits.pushed {n : Nat} (h : Fits grants stack (value.length + n) s)
    (ht : Pushed stack value pieces s start t) : Fits grants stack n t where
  ready := ⟨h.ready.metadata, h.ready.pages, ht.writable ▸ h.ready.writable, h.ready.user⟩
  room := by
    have := h.room
    have := ht.ends
    have := ht.cursor
    omega
  top := ht.cursor ▸ ht.stacked.top

theorem pushLoop_spec {values : List Bytes} (hs : Stacked stack pieces s.memory s.cursor) :
    wp (pushLoop grants stack values) s
      (fun pointers t => PushedAll stack values.reverse pieces s pointers.reverse t)
      fun _ _ => ¬Fits grants stack (stringsLength values) s := by
  induction values generalizing s pieces with
  | nil => exact wp_pure.2 ⟨rfl, rfl, rfl, hs⟩
  | cons value rest ih =>
    have hsum : stringsLength (value :: rest) = value.length + 1 + stringsLength rest := by
      rw [stringsLength, List.map_cons, List.sum_cons, ← stringsLength]
    simp only [pushLoop, wp_bind, wp_pure]
    refine (pushStackString_spec hs).mono ?_ ?_
    · intro pointer t ht
      have hstacked : Stacked stack ((pointer, value ++ [0]) :: pieces) t.memory t.cursor := by
        rw [ht.cursor]
        exact ht.stacked
      refine (ih hstacked).mono ?_ ?_
      · intro pointers u hu
        have hsnoc : stringsLength (rest.reverse ++ [value]) = stringsLength rest.reverse + (value.length + 1) := by
          simp [stringsLength]
        have hends := ht.ends
        rw [List.length_append, List.length_singleton] at hends
        rw [List.reverse_cons, List.reverse_cons]
        refine ⟨?_, ?_, hu.writable.trans ht.writable, ?_⟩
        · rw [List.length_append, List.length_append, hu.length]
          rfl
        · have := hu.cursor
          have := ht.cursor
          omega
        · have hpieces : stringPieces (pointers.reverse ++ [pointer]) (rest.reverse ++ [value]) =
              stringPieces pointers.reverse rest.reverse ++ [(pointer, value ++ [0])] := List.zipWith_append hu.length
          rw [hpieces, List.append_assoc]
          exact hu.stacked
      · intro _ _ hfail hfits
        refine hfail (Fits.pushed ?_ ht)
        rw [List.length_append, List.length_singleton]
        exact hsum ▸ hfits
    · intro _ _ hfail hfits
      refine hfail ⟨hfits.ready, ?_, hfits.top⟩
      have := hfits.room
      omega

theorem stringsLength_reverse {values : List Bytes} : stringsLength values.reverse = stringsLength values := by
  rw [stringsLength, List.map_reverse, List.sum_reverse, ← stringsLength]

theorem pushStrings_spec {request : Nat} {values : List Bytes}
    (hs : Stacked stack pieces s.memory s.cursor) : wp (pushStrings grants stack request values) s
      (fun pointers t => PushedAll stack values pieces s pointers t) fun _ _ =>
      ¬Fits grants stack (stringsLength values) s := by
  simp only [pushStrings, wp_bind, wp_ensure, wp_pure]
  refine ⟨fun _ => ?_, fun hdenied hfits => hdenied (hfits.ready.metadata request)⟩
  refine (pushLoop_spec hs).mono (fun pointers t ht => ?_) fun _ _ hfail => ?_
  · rwa [List.reverse_reverse] at ht
  · rwa [stringsLength_reverse] at hfail

/-! ### The whole stack -/

theorem alignDown16_le (n : Nat) : alignDown16 n ≤ n := Nat.sub_le _ _

theorem alignDown16_mod (n : Nat) : alignDown16 n % 16 = 0 := by
  unfold alignDown16
  omega

def wordsStart (cursor count : Nat) : Nat := alignDown16 (alignDown16 cursor - count * 8)

theorem pushWords_spec (hs : Stacked stack pieces s.memory s.cursor)
    (hne : words ≠ []) : wp (pushWords grants stack words) s
      (fun sp t => sp = wordsStart s.cursor words.length ∧ stack.start ≤ sp ∧
        Stacked stack ((sp, LittleEndian.encode 8 words) :: pieces) t.memory sp)
      fun _ _ => ¬(Ready grants stack s.memory ∧ words.length * 8 ≤ alignDown16 s.cursor ∧
        stack.start ≤ wordsStart s.cursor words.length) := by
  have htop := hs.top
  have huser := userEnd_lt
  have hcursor := alignDown16_le s.cursor
  have hpos : 0 < words.length := List.length_pos_iff.2 hne
  simp only [pushWords, wp_bind, wp_ensure, wp_okOr, wp_get, wp_pure, checkedMul, checkedSub]
  refine ⟨fun _ => ⟨fun total htotal => ?_, fun hnone hfits => ?_⟩, fun hdenied hfits => hdenied (hfits.1.metadata 2)⟩
  · split_ifs at htotal with hlt
    cases htotal
    refine ⟨fun below hbelow => ?_, fun hnone hfits => ?_⟩
    · split_ifs at hbelow with hle
      cases hbelow
      have hstart : alignDown16 (alignDown16 s.cursor - words.length * 8) = wordsStart s.cursor words.length := rfl
      have hdown := alignDown16_le (alignDown16 s.cursor - words.length * 8)
      refine validateStackSpan_spec.mono ?_ ?_
      · rintro _ t ⟨rfl, hspan⟩
        obtain ⟨hlow, hend⟩ := hspan.resolve_left (by omega)
        have hlength : (LittleEndian.encode 8 words).length = words.length * 8 := LittleEndian.length_encode _ _
        refine ⟨fun _ => ?_, fun hdenied hfits => hdenied (hfits.1.metadata 3)⟩
        refine (loadBytes_spec stack).mono ?_ ?_
        · intro _ u hu
          have hbelow : wordsStart t.cursor words.length + (LittleEndian.encode 8 words).length ≤ t.cursor := by omega
          refine ⟨hstart, hlow, hs.push hbelow hu.held fun place piece hpiece hplace => ?_⟩
          exact hu.keep _ _ hpiece (.inl (hbelow.trans hplace))
        · exact fun _ _ hfail hfits => hfail ⟨hfits.1, hlow, by omega⟩
      · exact fun _ _ hfail hfits => hfail ⟨by have := hfits.1.user; omega, hfits.2.2, by omega⟩
    · rw [if_pos hfits.2.1] at hnone
      cases hnone
  · have := hfits.1.user
    rw [if_pos (by omega)] at hnone
    cases hnone

/-- What a program finds on its stack: the block of words at the stack pointer, and the strings that it points to. The
pieces lie inside the stack area, and no two of them overlap. -/
structure Layout (stack : VirtRange) (argv envp : List Bytes) (info : AuxInfo) (memory : UserMemory) (sp : Nat) : Prop where
  aligned : sp % 16 = 0
  start_le : stack.start ≤ sp
  pieces : ∃ argvPtrs envpPtrs platformPtr randomPtr, argvPtrs.length = argv.length ∧ envpPtrs.length = envp.length ∧
    Stacked stack
      ((sp, LittleEndian.encode 8 (stackWords argvPtrs envpPtrs (info.auxv platformPtr randomPtr (argvPtrs.headD 0)))) ::
        (platformPtr, platform ++ [0]) ::
        (randomPtr, buildAtRandomBytes info.elf.entry stack (argvPtrs.headD 0)) ::
        (stringPieces envpPtrs envp ++ stringPieces argvPtrs argv)) memory sp

def wordCount (argv envp : List Bytes) : Nat := argv.length + envp.length + 41

theorem length_stackWords {argvPtrs envpPtrs : List Nat} {platformPtr randomPtr execfnPtr : Nat} :
    (stackWords argvPtrs envpPtrs (info.auxv platformPtr randomPtr execfnPtr)).length =
      argvPtrs.length + envpPtrs.length + 41 := by
  simp only [stackWords, AuxInfo.auxv, List.flatMap_cons, List.flatMap_nil, List.length_append, List.length_cons,
    List.length_nil]
  omega

def stringsEnd (stack : VirtRange) (argv envp : List Bytes) : Nat :=
  stack.end_ - (stringsLength argv + stringsLength envp + 16 + 8)

/-- Strings and words find room on the stack. -/
structure FitsStack (stack : VirtRange) (argv envp : List Bytes) : Prop where
  strings : stringsLength argv + stringsLength envp + 16 + 8 ≤ stack.end_
  words : wordCount argv envp * 8 ≤ alignDown16 (stringsEnd stack argv envp)
  start_le : stack.start ≤ wordsStart (stringsEnd stack argv envp) (wordCount argv envp)

def Legal (argv envp : List Bytes) : Prop := ∀ value ∈ argv ++ envp, value ≠ [] ∧ (0 : BitVec 8) ∉ value

theorem buildInitialStack_spec {argv envp : List Bytes} {info : AuxInfo} :
    wp (buildInitialStack grants stack argv envp info) s
    (fun sp t => argv ≠ [] ∧ Legal argv envp ∧ Layout stack argv envp info t.memory sp)
    fun _ _ => ¬(Ready grants stack s.memory ∧ argv ≠ [] ∧ Legal argv envp ∧ ¬stack.isEmpty ∧ stack.end_ % 16 = 0 ∧
      FitsStack stack argv envp) := by
  have hplatform : (platform ++ [0]).length = 8 := rfl
  have hrandom (entry execfn : Nat) : (buildAtRandomBytes entry stack execfn).length = 16 := by
    simp [buildAtRandomBytes]
  simp only [buildInitialStack, wp_bind, wp_ensure, wp_modify]
  refine ⟨fun hargv => ⟨fun hlegal => ⟨fun harea => ?_, fun h hall => h ⟨hall.2.2.2.1, hall.2.2.2.2.1⟩⟩,
    fun h hall => h hall.2.2.1⟩, fun h hall => h hall.2.1⟩
  have hempty : Stacked stack [] s.memory stack.end_ := ⟨le_rfl, fun _ h => (by cases h), .nil, fun _ h => (by cases h)⟩
  -- The bounds on the cursor that follow from the room for everything.
  have hroom (hfits : FitsStack stack argv envp) :
      stack.start + (stringsLength argv + stringsLength envp + 16 + 8) ≤ stack.end_ := by
    have h₁ := hfits.strings
    have h₂ := hfits.start_le
    have h₃ := alignDown16_le (stringsEnd stack argv envp)
    have h₄ := alignDown16_le (alignDown16 (stringsEnd stack argv envp) - wordCount argv envp * 8)
    unfold wordsStart at h₂
    unfold stringsEnd at *
    omega
  refine (pushStrings_spec (s := { s with cursor := stack.end_ }) hempty).mono ?_ ?_
  · intro argvPtrs s₁ h₁
    have hc₁ := h₁.cursor
    refine (pushStrings_spec h₁.stacked).mono ?_ ?_
    · intro envpPtrs s₂ h₂
      have hc₂ := h₂.cursor
      refine (pushStackBytes_spec h₂.stacked (by rw [← List.length_pos_iff, hrandom]; decide)).mono ?_ ?_
      · intro randomPtr s₃ h₃
        have hc₃ := h₃.ends
        rw [hrandom] at hc₃
        have hs₃ := h₃.stacked
        rw [← h₃.cursor] at hs₃
        refine (pushStackString_spec hs₃).mono ?_ ?_
        · intro platformPtr s₄ h₄
          have hc₄ := h₄.ends
          rw [hplatform] at hc₄
          have hs₄ := h₄.stacked
          rw [← h₄.cursor] at hs₄
          refine (pushWords_spec hs₄ (by simp [stackWords])).mono ?_ ?_
          · rintro sp t ⟨hsp, hlow, hstacked⟩
            refine ⟨hargv, hlegal, ?_, hlow, argvPtrs, envpPtrs, platformPtr, randomPtr, h₁.length, h₂.length, ?_⟩
            · rw [hsp]
              exact alignDown16_mod _
            · rw [h₄.cursor, h₃.cursor, List.append_nil] at hstacked
              exact hstacked
          · rintro _ _ hfail ⟨hready, -, -, -, -, hfits⟩
            have hr := hroom hfits
            have hcursor : s₄.cursor = stringsEnd stack argv envp := by
              rw [h₄.cursor, stringsEnd]
              rw [h₃.cursor] at hc₄
              dsimp only at hc₁
              omega
            have hcount : (stackWords argvPtrs envpPtrs (info.auxv platformPtr randomPtr (argvPtrs.headD 0))).length =
                wordCount argv envp := by
              rw [length_stackWords, h₁.length, h₂.length, wordCount]
            refine hfail ⟨⟨hready.metadata, hready.pages, ?_, hready.user⟩, ?_, ?_⟩
            · rw [h₄.writable, h₃.writable, h₂.writable, h₁.writable]
              exact hready.writable
            · rw [hcount, hcursor]
              exact hfits.words
            · rw [hcount, hcursor]
              exact hfits.start_le
        · rintro _ _ hfail ⟨hready, -, -, -, -, hfits⟩
          have hr := hroom hfits
          refine hfail ⟨⟨hready.metadata, hready.pages, ?_, hready.user⟩, ?_, hs₃.top⟩
          · rw [h₃.writable, h₂.writable, h₁.writable]
            exact hready.writable
          · rw [h₃.cursor, show platform.length + 1 = 8 from rfl]
            dsimp only at hc₁
            omega
      · rintro _ _ hfail ⟨hready, -, -, -, -, hfits⟩
        have hr := hroom hfits
        refine hfail ⟨⟨hready.metadata, hready.pages, ?_, hready.user⟩, ?_, h₂.stacked.top⟩
        · rw [h₂.writable, h₁.writable]
          exact hready.writable
        · rw [hrandom]
          dsimp only at hc₁
          omega
    · rintro _ _ hfail ⟨hready, -, -, -, -, hfits⟩
      have hr := hroom hfits
      refine hfail ⟨⟨hready.metadata, hready.pages, ?_, hready.user⟩, ?_, h₁.stacked.top⟩
      · rw [h₁.writable]
        exact hready.writable
      · dsimp only at hc₁
        omega
  · rintro _ _ hfail ⟨hready, -, -, -, -, hfits⟩
    have hr := hroom hfits
    exact hfail ⟨⟨hready.metadata, hready.pages, hready.writable, hready.user⟩, by dsimp only; omega, le_rfl⟩

/-! ### Reading it back -/

/-- The words from `address` on, up to the first zero. -/
def vectorAt (memory : UserMemory) : Nat → Nat → Option (List Nat)
  | 0, _ => none
  | limit + 1, address =>
    if memory.word address = 0 then some []
    else (vectorAt memory limit (address + 8)).map (memory.word address :: ·)

/-- The pairs of words from `address` on, up to the first that begins with a zero. -/
def auxvAt (memory : UserMemory) : Nat → Nat → Option (List (Nat × Nat))
  | 0, _ => none
  | limit + 1, address =>
    if memory.word address = 0 then some []
    else (auxvAt memory limit (address + 16)).map ((memory.word address, memory.word (address + 8)) :: ·)

/-- What a program finds at its stack pointer. -/
structure Found where
  argc : Nat
  argv : List Bytes
  envp : List Bytes
  auxv : List (Nat × Nat)
deriving DecidableEq

theorem Holds.map_range (h : Holds memory address bytes) :
    ((List.range bytes.length).map fun i => memory.bytes (address + i)) = bytes := by
  refine List.ext_getElem (by simp) fun i hi hi' => ?_
  rw [List.getElem_map, List.getElem_range, h i hi', List.getD_eq_getElem _ _ hi']

theorem Holds.of_append (h : Holds memory address (bytes ++ piece)) :
    Holds memory address bytes ∧ Holds memory (address + bytes.length) piece := by
  refine ⟨fun i hi => ?_, fun i hi => ?_⟩
  · rw [h i (by rw [List.length_append]; omega), List.getD_append _ _ _ _ hi]
  · rw [Nat.add_assoc, h (bytes.length + i) (by rw [List.length_append]; omega),
      List.getD_append_right _ _ _ _ (Nat.le_add_right _ _), Nat.add_sub_cancel_left]

theorem Holds.cons {word : Nat} (h : Holds memory address (LittleEndian.encode 8 (word :: words)))
    (hlt : word < usizeLimit) : memory.word address = word ∧ Holds memory (address + 8) (LittleEndian.encode 8 words) := by
  have hencode : LittleEndian.encode 8 (word :: words) = LittleEndian.bytes 8 word ++ LittleEndian.encode 8 words :=
    List.flatMap_cons
  rw [hencode] at h
  obtain ⟨hfirst, hrest⟩ := h.of_append
  have hbytes := hfirst.map_range
  rw [LittleEndian.length_bytes] at hrest hbytes
  refine ⟨?_, hrest⟩
  rw [UserMemory.word, hbytes, LittleEndian.value_bytes]
  exact Nat.mod_eq_of_lt hlt

theorem Holds.vectorAt (limit : Nat) {rest : List Nat}
    (h : Holds memory address (LittleEndian.encode 8 (words ++ 0 :: rest)))
    (hwords : ∀ word ∈ words, word ≠ 0 ∧ word < usizeLimit) (hlimit : words.length < limit) :
    vectorAt memory limit address = some words ∧
      Holds memory (address + (words.length + 1) * 8) (LittleEndian.encode 8 rest) := by
  induction words generalizing address limit with
  | nil =>
    obtain ⟨n, rfl⟩ := Nat.exists_eq_succ_of_ne_zero hlimit.ne'
    obtain ⟨hzero, hrest⟩ := h.cons (Nat.two_pow_pos 64)
    exact ⟨if_pos hzero, hrest⟩
  | cons word words ih =>
    obtain ⟨n, rfl⟩ := Nat.exists_eq_succ_of_ne_zero (Nat.ne_of_gt (Nat.zero_lt_of_lt hlimit))
    rw [List.forall_mem_cons] at hwords
    obtain ⟨hword, htail⟩ := h.cons hwords.1.2
    obtain ⟨hread, hrest⟩ := ih n htail hwords.2 (Nat.lt_of_succ_lt_succ hlimit)
    refine ⟨?_, ?_⟩
    · rw [InitialStack.vectorAt, hword, if_neg hwords.1.1, hread, Option.map_some]
    · rw [List.length_cons, show address + (words.length + 1 + 1) * 8 = address + 8 + (words.length + 1) * 8 by omega]
      exact hrest

theorem Holds.auxvAt (limit : Nat) {auxv : List (Nat × Nat)} {rest : List Nat}
    (h : Holds memory address (LittleEndian.encode 8 (auxv.flatMap (fun entry => [entry.1, entry.2]) ++ 0 :: rest)))
    (hauxv : ∀ entry ∈ auxv, entry.1 ≠ 0 ∧ entry.1 < usizeLimit ∧ entry.2 < usizeLimit) (hlimit : auxv.length < limit) :
    auxvAt memory limit address = some auxv := by
  induction auxv generalizing address limit with
  | nil =>
    obtain ⟨n, rfl⟩ := Nat.exists_eq_succ_of_ne_zero hlimit.ne'
    exact if_pos (h.cons (Nat.two_pow_pos 64)).1
  | cons entry auxv ih =>
    obtain ⟨n, rfl⟩ := Nat.exists_eq_succ_of_ne_zero (Nat.ne_of_gt (Nat.zero_lt_of_lt hlimit))
    rw [List.forall_mem_cons] at hauxv
    obtain ⟨⟨hne, htype, hvalue⟩, hauxv⟩ := hauxv
    obtain ⟨hfirst, htail⟩ := h.cons htype
    obtain ⟨hsecond, htail⟩ := htail.cons hvalue
    rw [InitialStack.auxvAt, hfirst, if_neg hne, hsecond, ih n htail hauxv (Nat.lt_of_succ_lt_succ hlimit), Option.map_some]

/-- The numbers of an image are machine words. -/
structure AuxInfo.Sized (info : AuxInfo) : Prop where
  phdr : info.phdr.virtualAddress < usizeLimit
  phent : info.phdr.entrySize < usizeLimit
  phnum : info.phdr.count < usizeLimit
  base : info.interpBase.getD 0 < usizeLimit
  entry : info.mainEntry.getD info.elf.entry < usizeLimit

theorem smallStack_le : 0x1000 ≤ 0x2000 := by decide

def smallStack : VirtRange := ⟨0x1000, 0x2000, smallStack_le⟩

def zeroed : StackState := ⟨⟨fun _ => 0, fun _ => true, fun _ => true⟩, 0⟩

def granted : Grants := ⟨fun _ => true, fun _ => true⟩

def plainInfo : AuxInfo where
  elf := { segments := [], kind := .executable, entry := 0x1000, loadBias := 0 }
  interpBase := none
  mainEntry := none
  mainPhdr := none

section
variable {user : UserMemory} {isUtf8 : Bytes → Bool} {fallback : Option Bytes} {values : List Bytes}
    {result : List Bytes × Nat}

/-! ### Strings that are copied in -/

theorem zero_notMem_copyUserCString {left : Nat} {value : Bytes}
    (h : copyUserCString user isUtf8 address left bytes = .ok value)
    (hbytes : (0 : BitVec 8) ∉ bytes) : (0 : BitVec 8) ∉ value := by
  induction left generalizing bytes with
  | zero => cases h
  | succ left ih =>
    rw [copyUserCString] at h
    split at h
    · next byte _ =>
      split_ifs at h with hzero
      · cases h
        exact hbytes
      · refine ih h fun hmem => ?_
        rcases List.mem_append.1 hmem with hmem | hmem
        · exact hbytes hmem
        · exact hzero (List.mem_singleton.1 hmem).symm
    · cases h

structure Copied (fallback : Option Bytes) (values : List Bytes) : Prop where
  zero_notMem : ∀ value ∈ values, (0 : BitVec 8) ∉ value
  ne_nil : fallback.isSome → values ≠ []

theorem finishArray_copied {remaining : Nat} (h : finishArray fallback values remaining = .ok result)
    (hvalues : ∀ value ∈ values, (0 : BitVec 8) ∉ value) (hfallback : ∀ value ∈ fallback, (0 : BitVec 8) ∉ value) :
    Copied fallback result.1 := by
  cases values with
  | nil =>
    cases fallback with
    | none =>
      cases h
      exact ⟨fun _ hmem => (nomatch hmem), fun hsome => (nomatch hsome)⟩
    | some value =>
      obtain ⟨left, -, hleft⟩ := bind_eq_ok.1 h
      cases hleft
      exact ⟨List.forall_mem_singleton.2 (hfallback value rfl), fun _ => List.cons_ne_nil _ _⟩
  | cons value values =>
    cases h
    exact ⟨hvalues, fun _ => List.cons_ne_nil _ _⟩

theorem copyPointers_copied {left remaining : Nat}
    (h : copyPointers user isUtf8 address fallback left values remaining = .ok result)
    (hvalues : ∀ value ∈ values, (0 : BitVec 8) ∉ value) (hfallback : ∀ value ∈ fallback, (0 : BitVec 8) ∉ value) :
    Copied fallback result.1 := by
  induction left generalizing values remaining with
  | zero => cases h
  | succ left ih =>
    rw [copyPointers] at h
    split at h
    · cases h
    · split_ifs at h with hzero
      · exact finishArray_copied h hvalues hfallback
      · obtain ⟨value, hvalue, h⟩ := bind_eq_ok.1 h
        obtain ⟨remaining, -, h⟩ := bind_eq_ok.1 h
        refine ih h (List.forall_mem_append.2 ⟨hvalues, List.forall_mem_singleton.2 ?_⟩)
        exact zero_notMem_copyUserCString hvalue List.not_mem_nil

theorem copyUserStringArray_copied {maximum remaining : Nat}
    (h : copyUserStringArray user isUtf8 address maximum fallback remaining = .ok result)
    (hfallback : ∀ value ∈ fallback, (0 : BitVec 8) ∉ value) : Copied fallback result.1 := by
  unfold copyUserStringArray at h
  split_ifs at h
  · exact finishArray_copied h (fun _ hmem => (nomatch hmem)) hfallback
  · exact copyPointers_copied h (fun _ hmem => (nomatch hmem)) hfallback

structure CopiedIn (user : UserMemory) (isUtf8 : Bytes → Bool) (pathAddress argvAddress envpAddress : Nat)
    (argv envp : List Bytes) : Prop where
  copies : ∃ path remaining rest limit, copyUserCString user isUtf8 pathAddress limit [] = .ok path ∧
    copyUserStringArray user isUtf8 argvAddress maxExecArgs (some path) maxExecTotalBytes = .ok (argv, remaining) ∧
    copyUserStringArray user isUtf8 envpAddress maxExecEnvs none remaining = .ok (envp, rest)

theorem CopiedIn.legal_iff {pathAddress argvAddress envpAddress : Nat} {argv envp : List Bytes}
    (h : CopiedIn user isUtf8 pathAddress argvAddress envpAddress argv envp) :
    argv ≠ [] ∧ (Legal argv envp ↔ ∀ value ∈ argv ++ envp, value ≠ []) := by
  obtain ⟨path, remaining, rest, limit, hpath, hargv, henvp⟩ := h.copies
  have hzero := zero_notMem_copyUserCString hpath List.not_mem_nil
  have hargs := copyUserStringArray_copied hargv fun value hvalue => by
    obtain rfl := Option.some.inj hvalue
    exact hzero
  have henvs := copyUserStringArray_copied henvp fun value hvalue => (nomatch hvalue)
  refine ⟨hargs.ne_nil rfl, fun hlegal value hv => (hlegal value hv).1, fun hne value hv => ⟨hne value hv, ?_⟩⟩
  rcases List.mem_append.1 hv with hv | hv
  · exact hargs.zero_notMem value hv
  · exact henvs.zero_notMem value hv

/-- Strings that are copied in and have room are accepted, unless one of them is empty. -/
theorem initial_stack_accepted_iff {pathAddress argvAddress envpAddress : Nat} {argv envp : List Bytes} {info : AuxInfo}
    (hcopied : CopiedIn user isUtf8 pathAddress argvAddress envpAddress argv envp) (hready : Ready grants stack s.memory)
    (hne : ¬stack.isEmpty) (haligned : stack.end_ % 16 = 0) (hfits : FitsStack stack argv envp) :
    (∃ sp t, buildInitialStack grants stack argv envp info s = .ok sp t) ↔ ∀ value ∈ argv ++ envp, value ≠ [] := by
  obtain ⟨hargv, hlegal⟩ := hcopied.legal_iff
  rw [← hlegal]
  have hspec := wp_iff.1 (@buildInitialStack_spec grants stack s argv envp info)
  constructor
  · rintro ⟨sp, t, hok⟩
    exact (hspec.1 sp t hok).2.1
  · intro h
    cases hrun : buildInitialStack grants stack argv envp info s with
    | ok sp t => exact ⟨sp, t, rfl⟩
    | error e t => exact absurd ⟨hready, hargv, h, hne, haligned, hfits⟩ (hspec.2 e t hrun)

end

theorem ready_zeroed : Ready granted smallStack zeroed.memory := ⟨fun _ => rfl, fun _ => rfl, fun _ _ => rfl, by decide⟩

def callerMemory (second : BitVec 8) : UserMemory :=
  ⟨fun a => if a = 0x100 then 0x61 else if a = 0x201 then 1 else if a = 0x208 ∨ a = 0x209 then second else 0,
    fun _ => true, fun _ => true⟩

theorem initial_stack_accepted_one : CopiedIn (callerMemory 0) (fun _ => true) 0x100 0x200 0 [[0x61]] [] ∧
    ∃ sp t, buildInitialStack granted smallStack [[0x61]] [] plainInfo zeroed = .ok sp t := by
  have hcopied : CopiedIn (callerMemory 0) (fun _ => true) 0x100 0x200 0 [[0x61]] [] :=
    ⟨[0x61], maxExecTotalBytes - 2, maxExecTotalBytes - 2, 16, rfl, rfl, rfl⟩
  refine ⟨hcopied, (initial_stack_accepted_iff hcopied ready_zeroed (by decide) (by decide) ⟨by
    decide, by decide, by decide⟩).2 ?_⟩
  decide

/-- An argument list with an empty string in it is copied in and has room, and is refused. -/
theorem empty_argument_refused : CopiedIn (callerMemory 1) (fun _ => true) 0x100 0x200 0 [[0x61], []] [] ∧
    Ready granted smallStack zeroed.memory ∧ FitsStack smallStack [[0x61], []] [] ∧
      ¬∃ sp t, buildInitialStack granted smallStack [[0x61], []] [] plainInfo zeroed = .ok sp t := by
  refine ⟨⟨[0x61], maxExecTotalBytes - 3, maxExecTotalBytes - 3, 16, rfl, rfl, rfl⟩, ready_zeroed,
    ⟨by decide, by decide, by decide⟩, ?_⟩
  rintro ⟨sp, t, hok⟩
  have hlegal := ((wp_iff.1 buildInitialStack_spec).1 sp t hok).2.1
  exact (hlegal [] (by decide)).1 rfl

/-! ### Outside the stack -/

def Outside (stack : VirtRange) (memory : UserMemory) (s : StackState) : Prop :=
  ∀ a, ¬stack.contains a → s.memory.bytes a = memory.bytes a

end SudoOS.InitialStack
