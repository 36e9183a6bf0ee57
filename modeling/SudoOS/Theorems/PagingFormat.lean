import SudoOS.Mm.Paging

/-! What the entry encoders write is what the entry accessors read back, and the three indices of a user address determine
its page. -/

namespace SudoOS

namespace PageTableEntry

variable {f raw : Nat} {o : MappingOptions}

theorem testBit_shift_or {flags : Nat} (h : flags < 2 ^ 10) (k : Nat) :
    (f <<< 10 ||| flags).testBit k = if k < 10 then flags.testBit k else f.testBit (k - 10) := by
  rw [Nat.testBit_or, Nat.testBit_shiftLeft]
  by_cases hk : k < 10
  · simp [hk]
  · have hlow : flags.testBit k = false :=
      Nat.testBit_lt_two_pow (Nat.lt_of_lt_of_le h (Nat.pow_le_pow_right (by omega) (by omega)))
    simp [hk, hlow, show 10 ≤ k by omega]

theorem encodeFrame_eq_ok (h : encodeFrame f = .ok raw) : f < 2 ^ 44 ∧ raw = f <<< 10 := by
  simp only [encodeFrame] at h
  split_ifs at h with hlim
  have hf : f < 2 ^ 44 := by
    simp only [physicalAddressLimit, pageShift, ppnBits, pageSize] at hlim
    omega
  refine ⟨hf, ?_⟩
  have hshift : (f * pageSize) >>> pageShift = f := by
    rw [Nat.shiftRight_eq_div_pow]
    exact Nat.mul_div_cancel f (show 0 < 2 ^ pageShift by decide)
  rw [hshift] at h
  cases h
  simp only [ppnShift, ppnMask, ppnBits]
  refine Nat.eq_of_testBit_eq fun k => ?_
  rw [Nat.testBit_and, Nat.testBit_shiftLeft, Nat.testBit_shiftLeft, Nat.testBit_two_pow_sub_one]
  by_cases hk : 10 ≤ k
  · by_cases hb : k - 10 < 44
    · simp [hk, hb]
    · have : f.testBit (k - 10) = false :=
        Nat.testBit_lt_two_pow (Nat.lt_of_lt_of_le hf (Nat.pow_le_pow_right (by omega) (by omega)))
      simp [this]
  · simp [hk]

/-- The frame number survives any flags below it. -/
theorem ppn_shift_or {flags : Nat} (hf : f < 2 ^ 44) (h : flags < 2 ^ 10) : ppn (f <<< 10 ||| flags) = f := by
  refine Nat.eq_of_testBit_eq fun k => ?_
  simp only [ppn, ppnShift, ppnMask, ppnBits]
  rw [Nat.testBit_shiftRight, Nat.testBit_and, testBit_shift_or h, Nat.testBit_shiftLeft, Nat.testBit_two_pow_sub_one]
  by_cases hk : k < 44
  · simp [hk]
  · have : f.testBit k = false :=
      Nat.testBit_lt_two_pow (Nat.lt_of_lt_of_le hf (Nat.pow_le_pow_right (by omega) (by omega)))
    simp [this]

theorem table_eq_ok (h : table f = .ok raw) : isTable raw = true ∧ frame raw = some f := by
  cases he : encodeFrame f with
  | error e => simp [table, he, bind, Except.bind] at h
  | ok p =>
    obtain ⟨hf, rfl⟩ := encodeFrame_eq_ok he
    obtain rfl : f <<< 10 ||| 2 ^ validBit = raw := by simpa [table, he, bind, Except.bind, pure, Except.pure] using h
    have hbit : ∀ k, (f <<< 10 ||| 2 ^ validBit).testBit k = _ := testBit_shift_or (by decide)
    have hvalid : isValid (f <<< 10 ||| 2 ^ validBit) = true := by
      rw [isValid, hbit]
      rfl
    refine ⟨?_, ?_⟩
    · rw [isTable, hvalid, hbit, hbit, hbit]
      rfl
    · rw [frame, if_pos hvalid, ppn_shift_or hf (by decide)]

/-- The rights a leaf entry carries. -/
structure Rights where
  permissions : PagePermissions
  user : Bool
  global : Bool
deriving DecidableEq

def rights (raw : Nat) : Rights where
  permissions := ⟨raw.testBit readBit, raw.testBit writeBit, raw.testBit executeBit⟩
  user := raw.testBit userBit
  global := raw.testBit globalBit

def optionsRights (o : MappingOptions) : Rights := ⟨o.permissions, o.user, o.global⟩

theorem leafFlags_lt : ∀ r w x u g, leafFlags r w x u g < 2 ^ 10 := by decide

theorem leafFlags_testBit : ∀ r w x u g, (leafFlags r w x u g).testBit validBit = true ∧
    (leafFlags r w x u g).testBit readBit = r ∧ (leafFlags r w x u g).testBit writeBit = w ∧
    (leafFlags r w x u g).testBit executeBit = x ∧ (leafFlags r w x u g).testBit userBit = u ∧
    (leafFlags r w x u g).testBit globalBit = g := by decide

theorem validate_eq_ok (h : o.validate = .ok ()) :
    (o.permissions.readable || o.permissions.writable || o.permissions.executable) = true := by
  unfold MappingOptions.validate at h
  split_ifs at h with hempty
  obtain ⟨⟨r, w, x⟩, m, u, g⟩ := o
  revert hempty
  cases r <;> cases w <;> cases x <;> simp [PagePermissions.isEmpty, PagePermissions.empty]

theorem leaf_eq_ok (h : leaf f o = .ok raw) :
    isLeaf raw = true ∧ isTable raw = false ∧ frame raw = some f ∧ rights raw = optionsRights o := by
  unfold leaf at h
  cases hv : o.validate with
  | error e => simp [hv] at h
  | ok _ =>
    cases he : encodeFrame f with
    | error e =>
      simp only [hv, he, bind, Except.bind] at h
      split_ifs at h
    | ok p =>
      obtain ⟨hf, rfl⟩ := encodeFrame_eq_ok he
      simp only [hv, he] at h
      split_ifs at h with hu
      have hlt := leafFlags_lt o.permissions.readable o.permissions.writable o.permissions.executable o.user o.global
      obtain ⟨h₀, h₁, h₂, h₃, h₄, h₅⟩ :=
        leafFlags_testBit o.permissions.readable o.permissions.writable o.permissions.executable o.user o.global
      generalize leafFlags o.permissions.readable o.permissions.writable o.permissions.executable o.user o.global = flags
        at h hlt h₀ h₁ h₂ h₃ h₄ h₅
      obtain rfl : f <<< 10 ||| flags = raw := by simpa [bind, Except.bind, pure, Except.pure] using h
      have hbit : ∀ k < 10, (f <<< 10 ||| flags).testBit k = flags.testBit k := fun k hk => by
        rw [testBit_shift_or hlt, if_pos hk]
      have hvalid : isValid (f <<< 10 ||| flags) = true := by
        rw [isValid, hbit _ (by decide), h₀]
      refine ⟨?_, ?_, ?_, ?_⟩
      · rw [isLeaf, hvalid, hbit _ (by decide), hbit _ (by decide), hbit _ (by decide), h₁, h₂, h₃, validate_eq_ok hv]
        rfl
      · rw [isTable, hvalid, hbit _ (by decide), hbit _ (by decide), hbit _ (by decide), h₁, h₂, h₃, validate_eq_ok hv]
        rfl
      · rw [frame, if_pos hvalid, ppn_shift_or hf hlt]
      · rw [rights, hbit _ (by decide), hbit _ (by decide), hbit _ (by decide), hbit _ (by decide), hbit _ (by decide), h₁,
          h₂,
          h₃, h₄, h₅]
        rfl

end PageTableEntry

/-! ### Indices -/

theorem pageIndex_eq (address level : Nat) : pageIndex address level = address / 2 ^ levelShift level % 512 := by
  rw [pageIndex, Nat.shiftRight_eq_div_pow]
  exact Nat.and_two_pow_sub_one_eq_mod _ 9

theorem pageIndex_lt (address level : Nat) : pageIndex address level < 512 := by
  rw [pageIndex_eq]
  exact Nat.mod_lt _ (by decide)

theorem pageIndex_zero_of_user {a : Nat} (h : a < userEnd) : pageIndex a 0 < 256 := by
  rw [pageIndex_eq]
  simp only [userEnd, levelShift] at *
  omega

theorem pageIndex_zero_of_kernel {a : Nat} (h : kernelCanonicalStart ≤ a) (hlt : a < usizeLimit) : 256 ≤ pageIndex a 0 := by
  rw [pageIndex_eq]
  simp only [kernelCanonicalStart, usizeLimit, levelShift] at *
  omega

/-- The three indices of a user address determine its page. -/
theorem page_eq_of_pageIndex {a b : Nat} (ha : a < userEnd) (hb : b < userEnd) (h₀ : pageIndex a 0 = pageIndex b 0)
    (h₁ : pageIndex a 1 = pageIndex b 1) (h₂ : pageIndex a 2 = pageIndex b 2) : a / 4096 = b / 4096 := by
  simp only [pageIndex_eq, levelShift, userEnd] at *
  omega

theorem pageIndex_eq_of_page {a b : Nat} (h : a / 4096 = b / 4096) (level : Nat) :
    pageIndex a level = pageIndex b level := by
  rw [pageIndex_eq, pageIndex_eq]
  rcases level with _ | _ | level <;> simp only [levelShift] <;> omega

end SudoOS
