import SudoOS.Theorems.UserFault

/-!
The bytes of a program in physical memory: what a store changes, and what the copies of the kernel to user pages do.
-/

namespace SudoOS

open Program RuntimePageTable
open PageTableEntry (Rights optionsRights)

/-! ### Bytes -/

section word
variable {word i j v : Nat}

theorem replaceByte_eq (word i v : Nat) :
    replaceByte word i v = word / 256 ^ (i + 1) * 256 ^ (i + 1) + (v % 256 * 256 ^ i + word % 256 ^ i) := by
  have hsplit : word = word / 256 ^ (i + 1) * 256 ^ (i + 1) + (word / 256 ^ i % 256 * 256 ^ i + word % 256 ^ i) := by
    have h₁ := Nat.div_add_mod' word (256 ^ (i + 1))
    have h₂ : word % 256 ^ (i + 1) = word / 256 ^ i % 256 * 256 ^ i + word % 256 ^ i := by
      rw [Nat.pow_succ, Nat.mod_mul, Nat.mul_comm (256 ^ i), Nat.add_comm]
    omega
  unfold replaceByte
  omega

theorem replaceByte_mod (word i v : Nat) : replaceByte word i v % 256 ^ i = word % 256 ^ i := by
  rw [replaceByte_eq, Nat.pow_succ, Nat.mul_comm (256 ^ i) 256, ← Nat.mul_assoc, ← Nat.add_assoc, ← Nat.add_mul,
    Nat.mul_comm, Nat.mul_add_mod, Nat.mod_mod]

theorem replaceByte_div (word i v : Nat) : replaceByte word i v / 256 ^ i = word / 256 ^ (i + 1) * 256 + v % 256 := by
  have hpow : 0 < 256 ^ i := Nat.pow_pos (by decide)
  rw [replaceByte_eq, Nat.pow_succ, Nat.mul_comm (256 ^ i) 256, ← Nat.mul_assoc, ← Nat.add_assoc, ← Nat.add_mul,
    Nat.mul_comm, Nat.mul_add_div hpow, Nat.div_eq_of_lt (Nat.mod_lt _ hpow), Nat.add_zero]

theorem byte_replaceByte (word v : Nat) (h : j ≠ i) : replaceByte word i v / 256 ^ j % 256 = word / 256 ^ j % 256 := by
  rcases Nat.lt_or_gt_of_ne h with hlt | hgt
  · obtain ⟨k, rfl⟩ : ∃ k, i = j + 1 + k := ⟨i - j - 1, by omega⟩
    have hmod : ∀ x : Nat, x / 256 ^ j % 256 = x % 256 ^ (j + 1 + k) / 256 ^ j % 256 := fun x => by
      rw [Nat.add_assoc, Nat.pow_add, Nat.mod_mul_right_div_self, Nat.mod_mod_of_dvd]
      exact dvd_pow_self 256 (by omega)
    rw [hmod, replaceByte_mod, ← hmod]
  · obtain ⟨k, rfl⟩ : ∃ k, j = i + 1 + k := ⟨j - i - 1, by omega⟩
    have hdiv : ∀ x : Nat, x / 256 ^ (i + 1 + k) = x / 256 ^ i / 256 / 256 ^ k := fun x => by
      rw [Nat.div_div_eq_div_mul, Nat.div_div_eq_div_mul, ← Nat.mul_assoc, ← Nat.pow_succ, ← Nat.pow_add]
    rw [hdiv, hdiv, replaceByte_div, Nat.mul_comm, Nat.mul_add_div (by decide), Nat.div_eq_of_lt (Nat.mod_lt _ (by decide)),
      Nat.add_zero, Nat.pow_succ, ← Nat.div_div_eq_div_mul]
end word

namespace PageTableState

variable {s : PageTableState} {physical q : Nat} {bytes : List Nat}

theorem loadByte_storeByte_of_ne {value : Nat} (h : q ≠ physical) : (s.storeByte physical value).loadByte q =
    s.loadByte q := by
  unfold loadByte storeByte setEntry
  dsimp only
  split_ifs with hword
  · have hindex : q % 8 ≠ physical % 8 := by
      have := hword.2
      unfold pageSize at hword
      omega
    rw [byte_replaceByte _ _ hindex, hword.1, hword.2]
  · rfl

theorem loadByte_storeBytes_of_outside (h : q < physical ∨ physical + bytes.length ≤ q) :
    (s.storeBytes physical bytes).loadByte q = s.loadByte q := by
  induction bytes generalizing s physical with
  | nil => rfl
  | cons value rest ih =>
    rw [List.length_cons] at h
    rw [storeBytes, ih (by omega), loadByte_storeByte_of_ne (by omega)]

/-- A store changes the words of the frames that it reaches, and nothing else. -/
theorem storeBytes_eq (s : PageTableState) (physical : Nat) (bytes : List Nat) :
    ∃ entry, s.storeBytes physical bytes = { s with entry := entry } ∧
      ∀ f, (∀ k < bytes.length, f ≠ (physical + k) / 4096) → entry f = s.entry f := by
  induction bytes generalizing s physical with
  | nil => exact ⟨s.entry, rfl, fun _ _ => rfl⟩
  | cons value rest ih =>
    obtain ⟨entry, heq, hsame⟩ := ih (s.storeByte physical value) (physical + 1)
    refine ⟨entry, heq, fun f hf => ?_⟩
    have hrest : ∀ k < rest.length, f ≠ (physical + 1 + k) / 4096 := fun k hk => by
      rw [Nat.add_assoc, Nat.add_comm 1 k]
      exact hf (k + 1) (by rw [List.length_cons]; omega)
    have hfirst : f ≠ physical / 4096 := hf 0 (by rw [List.length_cons]; omega)
    rw [hsame f hrest]
    funext i
    exact if_neg fun hi => hfirst hi.1

end PageTableState

namespace UserMm

variable {s t u : UserMmState} {address length : Nat}

def PlacedAt (s : UserMmState) (x physical : Nat) : Prop :=
  ∃ y, view s.table (.containingAddress x) = some y ∧ physical = y.1 * 4096 + x % 4096

structure Written (address length : Nat) (s t : UserMmState) : Prop where
  layout : t.core.layout = s.core.layout
  pages : t.pages = s.pages
  backed : Backed t.table t.pages
  view_eq : view t.table = view s.table
  bytes : ∀ p, t.table.loadByte p ≠ s.table.loadByte p → ∃ x, address ≤ x ∧ x < address + length ∧ PlacedAt s x p

theorem Written.refl (hs : Inv s) : Written address length s s :=
  ⟨rfl, rfl, hs.backed, rfl, fun _ h => absurd rfl h⟩

theorem PlacedAt.congr (h : view t.table = view s.table) {x p : Nat} : PlacedAt t x p ↔ PlacedAt s x p := by
  unfold PlacedAt
  rw [h]

theorem Written.trans (h : Written address length s t) (h' : Written address length t u) : Written address length s u where
  layout := h'.layout.trans h.layout
  pages := h'.pages.trans h.pages
  backed := h'.backed
  view_eq := h'.view_eq.trans h.view_eq
  bytes p hp := by
    by_cases hfirst : t.table.loadByte p = s.table.loadByte p
    · obtain ⟨x, hlow, hhigh, hplaced⟩ := h'.bytes p (hfirst ▸ hp)
      exact ⟨x, hlow, hhigh, (PlacedAt.congr h.view_eq).1 hplaced⟩
    · exact h.bytes p hfirst

theorem Written.attr (h : Written address length s t) : attr t = attr s := by
  unfold UserMm.attr
  rw [h.layout]

theorem Written.calm (h : Written address length s t) (hs : Inv s) : Calm s t := by
  have hkept : Kept s t := by
    refine ⟨h.backed, ⟨[], .of_eq h.pages.symm⟩, fun _ _ => ?_, fun _ _ => ?_⟩
    · rw [h.view_eq]
    · rw [h.attr]
  refine hkept.outcome (hkept.inv hs ?_ ?_) fun x v hv _ => ?_
  · rw [h.layout]
    exact hs.layout
  · rw [h.attr]
    exact hs.lawful
  · rw [h.attr]
    exact hv

theorem Backed.rewrite {table : PageTableState} {pages : List MappedPage} {entry : Nat → Nat → Nat} {m : MappedPage}
    (h : Backed table pages) (hm : m ∈ pages) (hentry : ∀ f, f ≠ m.backing → entry f = table.entry f) :
    Backed { table with entry := entry } pages ∧ view { table with entry := entry } = view table := by
  obtain ⟨hforeign, hram⟩ := h.frames m hm
  have houtside : Outside table { table with entry := entry } (· = m.backing) :=
    ⟨rfl, rfl, rfl, rfl, rfl, rfl, fun f hf => hf ▸ hforeign, fun f hf => hf ▸ hram, hentry, fun _ _ => rfl⟩
  obtain ⟨place, hw⟩ := h.wf
  have hview := houtside.view_eq hw
  refine ⟨⟨⟨place, houtside.wf hw⟩, h.backings, fun m hm => ?_, h.user, ?_⟩, hview⟩
  · obtain ⟨⟨hused, hroot, htable, hretired, hkernel⟩, hram⟩ := h.frames m hm
    exact ⟨⟨hused, hroot, htable, hretired, hkernel⟩, hram⟩
  · rw [hview]
    exact h.leaf

theorem storeChunk_spec (hs : Inv s) {x physical : Nat} {bytes : List Nat} (hplaced : PlacedAt s x physical)
    (hfit : x % 4096 + bytes.length ≤ 4096) (hlow : address ≤ x) (hhigh : x + bytes.length ≤ address + length) :
    wp (storeChunk physical bytes) s (fun _ t => Written address length s t) (fun _ _ => False) := by
  obtain ⟨y, hview, rfl⟩ := hplaced
  have hmem := hs.backed.leaf _ _ _ hview
  have hframe : ∀ k, x % 4096 + k < 4096 → (y.1 * 4096 + x % 4096 + k) / 4096 = y.1 := fun k hk => by omega
  have hram : s.table.ram ((y.1 * 4096 + x % 4096) / pageSize) = true := by
    have hquot : (y.1 * 4096 + x % 4096) / pageSize = y.1 := by
      unfold pageSize
      omega
    rw [hquot]
    exact (hs.backed.frames _ hmem).2
  simp only [storeChunk, wp_bind, wp_get, wp_ite, wp_set, wp_throw]
  refine ⟨fun _ => ?_, fun hnot => hnot hram⟩
  obtain ⟨entry, heq, hsame⟩ := PageTableState.storeBytes_eq s.table (y.1 * 4096 + x % 4096) bytes
  have hentry : ∀ f, f ≠ y.1 → entry f = s.table.entry f := fun f hf =>
    hsame f fun k hk => by rw [hframe k (by omega)]; exact hf
  obtain ⟨hbacked, hsameView⟩ := Backed.rewrite hs.backed hmem hentry
  refine ⟨rfl, rfl, ?_, ?_, fun p hp => ?_⟩
  · rw [setTable, heq]
    exact hbacked
  · rw [setTable, heq]
    exact hsameView
  · -- A byte that has changed lies where a byte of the chunk was stored.
    have hin : y.1 * 4096 + x % 4096 ≤ p ∧ p < y.1 * 4096 + x % 4096 + bytes.length := by
      by_contra hout
      exact hp (PageTableState.loadByte_storeBytes_of_outside (by omega))
    obtain ⟨k, rfl⟩ := Nat.exists_eq_add_of_le hin.1
    have hpage : VirtPage.containingAddress (x + k) = .containingAddress x := by
      refine page_eq_iff.1 ?_
      rw [containingAddress_page, containingAddress_page]
      omega
    refine ⟨x + k, by omega, by omega, y, ?_, by omega⟩
    rw [hpage]
    exact hview

/-! ### Loops over chunks -/

section loops
variable {physical : Nat → UserMmM Nat} {R : UserMmState → UserMmState → Prop} {input : List Nat}

theorem chunk_fits (x : Nat) (input : List Nat) : x % 4096 + (chunk x input).length ≤ 4096 := by
  unfold chunk
  rw [List.length_take]
  have : x % 4096 < 4096 := Nat.mod_lt _ (by decide)
  unfold pageSize
  omega

/-- A loop of stores, for a relation that finding the place of a byte and storing there are part of. -/
theorem storeLoop_spec {fuel first : Nat} (htrans : ∀ {s t u}, R s t → R t u → R s u)
    (hplace : ∀ {s} x, Inv s → address ≤ x → x < address + length → wp (physical x) s
      (fun p t => R s t ∧ Inv t ∧ PlacedAt t x p) (fun e t => e.IsError → R s t))
    (hwrite : ∀ {s t}, Inv s → Written address length s t → R s t)
    (hs : Inv s) (hlow : address ≤ first) (hhigh : first + input.length ≤ address + length) :
    wp (storeLoop physical fuel first input) s (fun _ t => R s t ∧ Inv t) (fun e t => e.IsError → R s t) := by
  induction fuel generalizing s first input with
  | zero => exact wp_pure.2 ⟨hwrite hs (.refl hs), hs⟩
  | succ fuel ih =>
    simp only [storeLoop, wp_ite, wp_pure, wp_bind, wp_okOr]
    refine ⟨fun _ => ⟨hwrite hs (.refl hs), hs⟩, fun hne => ?_⟩
    have hne' : input ≠ [] := fun h => hne (by rw [h]; rfl)
    have hpos := List.length_pos_iff.2 hne'
    refine (hplace first hs hlow (by omega)).mono ?_ fun _ _ h => h
    rintro p t ⟨hst, ht, hplaced⟩
    have hlen : (chunk first input).length ≤ input.length := by
      rw [chunk, List.length_take]
      exact Nat.min_le_right _ _
    have hend : first + (chunk first input).length ≤ address + length := by omega
    refine (storeChunk_spec ht hplaced (chunk_fits first input) hlow hend).mono ?_ fun _ _ h => h.elim
    rintro _ u hu
    have hsu : R s u := htrans hst (hwrite ht hu)
    have huinv : Inv u := (hu.calm ht).inv
    refine ⟨fun next hnext => ?_, fun _ _ => hsu⟩
    rw [← (checkedAdd_eq_some.1 hnext).2]
    refine (ih huinv (by omega) ?_).mono ?_ fun _ _ h he => htrans hsu (h he)
    · rw [List.length_drop]
      omega
    · rintro _ v ⟨hv, hvinv⟩
      exact ⟨htrans hsu hv, hvinv⟩

theorem copyToMappedPages_spec (hs : Inv s) (huser : address + input.length ≤ userEnd) :
    wp (copyToMappedPages address input) s
      (fun _ t => Written address input.length s t) (fun e t => e.IsError → Written address input.length s t) := by
  refine (storeLoop_spec (R := Written address input.length) Written.trans ?_ (fun _ h => h) hs (Nat.le_refl _)
    (Nat.le_refl _)).mono (fun _ _ h => h.1) fun _ _ h => h
  intro s x hs _ hx
  simp only [wp_bind, wp_translate, wp_okOr]
  refine ⟨fun physical hphysical => ⟨fun p hp => ⟨.refl hs, hs, ?_⟩, fun _ _ => .refl hs⟩, fun _ _ _ => .refl hs⟩
  rw [hs.backed.translate (by omega), hp] at hphysical
  obtain ⟨y, hy, hpy⟩ := Option.map_eq_some_iff.1 (Except.ok.inj hphysical)
  exact ⟨y, hy, hpy.symm⟩

theorem loadBytes_spec (hs : Inv s) : wp (loadBytes address input) s
    (fun _ t => Calm s t) (fun e t => e.IsError → Calm s t) := by
  have hconsumed : Calm s (consumed 1 s) := (Untouched.consumed hs.backed 1).outcome hs
  simp only [loadBytes, wp_ite, wp_pure, wp_bind, wp_okOr, wp_tryReserve]
  refine ⟨fun _ => .refl hs, fun _ => ⟨fun _ _ => ⟨fun _ _ => ⟨fun _ _ => ⟨fun _ => ?_, fun _ _ => hconsumed⟩,
    fun _ _ => .refl hs⟩, fun _ _ => .refl hs⟩, fun _ _ => .refl hs⟩⟩
  refine (storeLoop_spec (R := Calm) Outcome.trans ?_ (fun hs h => h.calm hs) hconsumed.inv (Nat.le_refl _)
    (Nat.le_refl _)).mono (fun _ _ h => hconsumed.trans h.1) fun _ _ h he => hconsumed.trans (h he)
  intro s x hs _ _
  simp only [wp_bind, wp_get, wp_okOr]
  refine ⟨fun area hfind => (mapZeroPageLocked_calm hs hfind).mono ?_ ?_, fun _ _ => .refl hs⟩
  · rintro p t ⟨ht, -, hplaced⟩
    exact ⟨ht, ht.inv, hplaced⟩
  · rintro e t ⟨-, ht, -⟩ -
    exact ht

theorem populateLoop_spec {fuel end_ page : Nat} (hs : Inv s) : wp (populateLoop end_ fuel page) s
    (fun _ t => Calm s t) (fun e t => e.IsError → Calm s t) := by
  induction fuel generalizing s page with
  | zero => exact wp_pure.2 (.refl hs)
  | succ fuel ih =>
    simp only [populateLoop, wp_ite, wp_bind, wp_okOr, wp_pure]
    refine ⟨fun _ => (populatePage_spec hs).mono ?_ ?_, fun _ => .refl hs⟩
    · rintro _ t ⟨ht, -⟩
      exact ⟨fun next _ => (ih ht.inv).mono (fun _ _ h => ht.trans h) fun _ _ h he => ht.trans (h he), fun _ _ => ht⟩
    · rintro e t ⟨-, ht⟩ -
      exact ht

theorem populateZeroedRange_spec (hs : Inv s) : wp (populateZeroedRange address length) s
    (fun _ t => Calm s t) (fun e t => e.IsError → Calm s t) := by
  have hconsumed : Calm s (consumed 1 s) := (Untouched.consumed hs.backed 1).outcome hs
  simp only [populateZeroedRange, wp_ite, wp_pure, wp_bind, wp_okOr, wp_tryReserve]
  refine ⟨fun _ => .refl hs, fun _ => ⟨fun _ _ => ⟨fun _ _ => ⟨fun _ _ => ⟨fun _ => ?_, fun _ _ => hconsumed⟩,
    fun _ _ => .refl hs⟩, fun _ _ => .refl hs⟩, fun _ _ => .refl hs⟩⟩
  exact (populateLoop_spec hconsumed.inv).mono (fun _ _ h => hconsumed.trans h) fun _ _ h he => hconsumed.trans (h he)

end loops

/-! ### Validation -/

section validation
variable {access : FaultAccess} {fuel end_ cursor : Nat} {input : List Nat}

def Allows (access : FaultAccess) (low high : Nat) (s : UserMmState) : Prop :=
  ∀ x, low ≤ x → x < high → ∃ f k, attr s x = some (f, k) ∧ accessAllowed f access = true

theorem validateLoop_spec (hs : Inv s) (hfuel : end_ ≤ cursor + fuel) : wp (validateLoop access end_ fuel cursor) s
    (fun _ t => t = s ∧ Allows access cursor end_ s) (fun e t => e.IsError ∧ t = s) := by
  induction fuel generalizing cursor with
  | zero => exact wp_pure.2 ⟨rfl, fun x _ _ => by omega⟩
  | succ fuel ih =>
    simp only [validateLoop, nextPage, wp_ite, wp_bind, wp_get, wp_okOr, wp_throw, wp_pure]
    refine ⟨fun hlt => ⟨fun area hfind => ⟨fun _ => ⟨⟨_, rfl⟩, trivial⟩, fun hallowed => ⟨fun next hnext => ?_,
      fun _ => ⟨⟨_, rfl⟩, trivial⟩⟩⟩, fun _ => ⟨⟨_, rfl⟩, trivial⟩⟩, fun hge => ⟨trivial, fun x _ _ => by omega⟩⟩
    have hnext' := (checkedAdd_eq_some.1 hnext).2
    unfold pageSize at hnext'
    refine (ih (by omega)).mono ?_ fun _ _ h => h
    rintro _ t ⟨rfl, hrest⟩
    refine ⟨rfl, fun x hlow hhigh => ?_⟩
    by_cases hx : x < min next end_
    · -- Up to the end of the page, the attributes are those of the cursor.
      have hpage : x - x % 4096 = cursor - cursor % 4096 := by omega
      refine ⟨area.flags, area.kind, ?_, by simpa using hallowed⟩
      rw [← hs.attr_of_findArea hfind, attr, ← hs.layout.attr_page x, hpage, hs.layout.attr_page]
      rfl
    · exact hrest x (by omega) hhigh

/-- The check of the areas changes nothing. -/
theorem validateRange_spec (hs : Inv s) : wp (validateRange address length access) s
    (fun _ t => t = s ∧ 0 < length ∧ Allows access address (address + length) s) (fun e t => e.IsError ∧ t = s) := by
  simp only [validateRange, wp_bind, wp_okOr, wp_ite, wp_throw]
  refine ⟨fun end_ hend => ⟨fun _ => ⟨⟨_, rfl⟩, trivial⟩, fun hlt => ?_⟩, fun _ => ⟨⟨_, rfl⟩, trivial⟩⟩
  obtain rfl := (checkedAdd_eq_some.1 hend).2
  refine (validateLoop_spec hs (Nat.le_refl _)).mono ?_ fun _ _ h => h
  rintro _ t ⟨rfl, h⟩
  exact ⟨rfl, by omega, h⟩

theorem Allows.user (h : Allows access address (address + length) s) (hs : Inv s) (hpos : 0 < length) :
    address + length ≤ userEnd := by
  obtain ⟨f, k, hf, -⟩ := h (address + length - 1) (by omega) (by omega)
  have := hs.layout.below _ (fun hnone => absurd (hnone.symm.trans hf) (Option.some_ne_none _).symm)
  omega

theorem mappedLoop_spec : wp (mappedLoop end_ fuel cursor) s (fun _ t => t = s) (fun e t => e.IsError ∧ t = s) := by
  induction fuel generalizing cursor with
  | zero => exact wp_pure.2 rfl
  | succ fuel ih =>
    simp only [mappedLoop, nextPage, wp_ite, wp_bind, wp_translate, wp_okOr, wp_pure]
    exact ⟨fun _ => ⟨fun _ _ => ⟨fun _ => trivial, fun _ => ⟨fun _ _ => ih, fun _ => ⟨⟨_, rfl⟩, trivial⟩⟩⟩,
      fun _ _ => ⟨⟨_, rfl⟩, trivial⟩⟩, fun _ => trivial⟩

theorem validateMappedRange_spec : wp (validateMappedRange address length) s
    (fun _ t => t = s) (fun e t => e.IsError ∧ t = s) := by
  simp only [validateMappedRange, wp_bind, wp_okOr]
  exact ⟨fun _ _ => mappedLoop_spec, fun _ => ⟨⟨_, rfl⟩, trivial⟩⟩

/-! ### The critical sections of a copy -/

/-- The first section checks the areas before it stores anything. -/
theorem copyIfMapped_spec (hs : Inv s) : wp (copyIfMapped address input) s
    (fun _ t => Allows .write address (address + input.length) s ∧ Written address input.length s t)
    (fun e t => e.IsError → t = s ∨ Allows .write address (address + input.length) s ∧
      Written address input.length s t) := by
  simp only [copyIfMapped, wp_bind]
  refine (validateRange_spec hs).mono ?_ ?_
  · rintro _ t ⟨rfl, hpos, hallows⟩
    refine validateMappedRange_spec.mono ?_ ?_
    · rintro mapped t rfl
      rw [wp_ite]
      refine ⟨fun _ => ?_, fun _ => wp_pure.2 ⟨hallows, .refl hs⟩⟩
      rw [wp_bind]
      refine (copyToMappedPages_spec hs (hallows.user hs hpos)).mono ?_ fun _ _ h he => .inr ⟨hallows, h he⟩
      exact fun _ _ h => wp_pure.2 ⟨hallows, h⟩
    · rintro e t ⟨-, rfl⟩ -
      exact .inl rfl
  · rintro e t ⟨-, rfl⟩ -
    exact .inl rfl

/-- The last section only asks whether the pages are there. -/
theorem copyResident_spec (hs : Inv s) (huser : address + input.length ≤ userEnd) : wp (copyResident address input) s
    (fun _ t => Written address input.length s t) (fun e t => e.IsError → Written address input.length s t) := by
  simp only [copyResident, wp_bind]
  refine validateMappedRange_spec.mono ?_ ?_
  · rintro mapped t rfl
    rw [wp_ite]
    exact ⟨fun _ => copyToMappedPages_spec hs huser, fun _ => wp_throw.2 fun _ => .refl hs⟩
  · rintro e t ⟨-, rfl⟩ -
    exact .refl hs

theorem loadLoop_spec {fuel length : Nat} {read : List Nat} : wp (loadLoop fuel address length read) s
    (fun _ t => t = s) (fun e t => e.IsError ∧ t = s) := by
  induction fuel generalizing address length read with
  | zero => exact wp_pure.2 rfl
  | succ fuel ih =>
    simp only [loadLoop, wp_ite, wp_pure, wp_bind, wp_translate, wp_okOr, wp_get, wp_throw]
    exact ⟨fun _ => trivial, fun _ => ⟨fun _ _ => ⟨fun _ _ => ⟨fun _ => ⟨fun _ _ => ih, fun _ => ⟨⟨_, rfl⟩, trivial⟩⟩,
      fun _ => ⟨⟨_, rfl⟩, trivial⟩⟩, fun _ => ⟨⟨_, rfl⟩, trivial⟩⟩, fun _ _ => ⟨⟨_, rfl⟩, trivial⟩⟩⟩

theorem copyFromUser_spec (hs : Inv s) : wp (copyFromUser address length) s
    (fun _ t => t = s) (fun e t => e.IsError ∧ t = s) := by
  simp only [copyFromUser, wp_ite, wp_pure, wp_bind]
  refine ⟨fun _ => trivial, fun _ => (validateRange_spec hs).mono ?_ fun _ _ h => h⟩
  rintro _ t ⟨rfl, -, -⟩
  refine validateMappedRange_spec.mono ?_ fun _ _ h => h
  rintro mapped t rfl
  exact ⟨fun _ => loadLoop_spec, fun _ => wp_throw.2 ⟨⟨_, rfl⟩, rfl⟩⟩

theorem copyToUser_spec (hs : Inv s) : wp (copyToUser address input) s
    (fun _ t => Calm s t) (fun e t => e.IsError → Calm s t) := by
  simp only [copyToUser, wp_ite, wp_pure, wp_bind, wp_okOr]
  refine ⟨fun _ => .refl hs, fun hne => (copyIfMapped_spec hs).mono ?_ ?_⟩
  · rintro copied t ⟨hallows, ht⟩
    have hcalm := ht.calm hs
    refine ⟨fun _ => hcalm, fun _ => ⟨fun end_ _ => (populateLoop_spec hcalm.inv).mono ?_ ?_, fun _ _ => hcalm⟩⟩
    · intro _ u hu
      have hne' : input ≠ [] := fun h => hne (by rw [h]; rfl)
      have huser := hallows.user hs (List.length_pos_iff.2 hne')
      have hsu := hcalm.trans hu
      exact (copyResident_spec hsu.inv huser).mono (fun _ _ h => hsu.trans (h.calm hsu.inv))
        fun _ _ h he => hsu.trans ((h he).calm hsu.inv)
    · exact fun _ _ h he => hcalm.trans (h he)
  · intro e t h he
    rcases h he with rfl | ⟨-, ht⟩
    · exact .refl hs
    · exact ht.calm hs

end validation

end UserMm

end SudoOS
