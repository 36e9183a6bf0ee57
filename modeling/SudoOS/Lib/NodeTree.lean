import Mathlib

/-!
Trees of nodes with numbered slots, where every node but the root hangs in exactly one slot. A node is described by its
`place`, the path of slots that leads to it from the root.
-/

namespace NodeTree

variable {ν ι : Type*}

/-- Follows a path of slots from a node. -/
def walk (child : ν → ι → Option ν) : ν → List ι → Option ν
  | t, [] => some t
  | t, i :: p => (child t i).bind fun c => walk child c p

structure IsTree (child : ν → ι → Option ν) (root : ν) (nodes : ν → Prop) (place : ν → List ι) : Prop where
  root_not : ¬nodes root
  place_root : place root = []
  child_iff : ∀ {t}, t = root ∨ nodes t → ∀ {i c}, child t i = some c ↔ nodes c ∧ place c = place t ++ [i]
  parent : ∀ {c}, nodes c → ∃ t i, (t = root ∨ nodes t) ∧ place c = place t ++ [i]

namespace IsTree

variable {child child' : ν → ι → Option ν} {root t u c : ν} {nodes : ν → Prop} {place : ν → List ι} {i : ι} {p : List ι}

theorem place_ne_nil (h : IsTree child root nodes place) (hc : nodes c) : place c ≠ [] := by
  obtain ⟨t, i, -, hp⟩ := h.parent hc
  simp [hp]

theorem ne_root (h : IsTree child root nodes place) (hc : nodes c) : c ≠ root := by
  rintro rfl
  exact h.root_not hc

theorem place_inj (h : IsTree child root nodes place) (ht : t = root ∨ nodes t) (hu : u = root ∨ nodes u)
    (he : place t = place u) : t = u := by
  rcases hu with rfl | hu
  · rcases ht with rfl | ht
    · rfl
    · exact absurd (he.trans h.place_root) (h.place_ne_nil ht)
  · rcases ht with rfl | ht
    · exact absurd (he.symm.trans h.place_root) (h.place_ne_nil hu)
    · obtain ⟨w, i, hw, hp⟩ := h.parent hu
      have h₁ : child w i = some t := (h.child_iff hw).2 ⟨ht, he.trans hp⟩
      have h₂ : child w i = some u := (h.child_iff hw).2 ⟨hu, hp⟩
      exact Option.some.inj (h₁.symm.trans h₂)

theorem prefix_closed (h : IsTree child root nodes place) (ht : t = root ∨ nodes t) {q r : List ι} (hp : place t = q ++ r) :
    ∃ u, (u = root ∨ nodes u) ∧ place u = q := by
  induction r using List.reverseRecOn generalizing t with
  | nil => exact ⟨t, ht, by simpa using hp⟩
  | append_singleton r i ih =>
    rcases ht with rfl | ht
    · simp [h.place_root] at hp
    · obtain ⟨w, j, hw, hpw⟩ := h.parent ht
      rw [hpw, ← List.append_assoc] at hp
      exact ih hw (List.append_inj_left' hp rfl)

theorem walk_iff_of_mem (h : IsTree child root nodes place) (hu : u = root ∨ nodes u) :
    walk child u p = some t ↔ (t = root ∨ nodes t) ∧ place t = place u ++ p := by
  induction p generalizing u with
  | nil =>
    simp only [walk, Option.some.injEq, List.append_nil]
    constructor
    · rintro rfl
      exact ⟨hu, rfl⟩
    · rintro ⟨ht, he⟩
      exact h.place_inj hu ht he.symm
  | cons i p ih =>
    simp only [walk, Option.bind_eq_some_iff]
    constructor
    · rintro ⟨c, hc, hwalk⟩
      obtain ⟨hn, hp⟩ := (h.child_iff hu).1 hc
      obtain ⟨ht, he⟩ := (ih (.inr hn)).1 hwalk
      exact ⟨ht, by simp [he, hp]⟩
    · rintro ⟨ht, he⟩
      obtain ⟨c, hc, hpc⟩ := h.prefix_closed ht (q := place u ++ [i]) (r := p) (by simp [he])
      have hn : nodes c := by
        refine hc.resolve_left ?_
        rintro rfl
        simp [h.place_root] at hpc
      exact ⟨c, (h.child_iff hu).2 ⟨hn, hpc⟩, (ih (.inr hn)).2 ⟨ht, by simp [he, hpc]⟩⟩

theorem walk_iff (h : IsTree child root nodes place) :
    walk child root p = some t ↔ (t = root ∨ nodes t) ∧ place t = p := by
  simp [h.walk_iff_of_mem (.inl rfl), h.place_root]

theorem congr (h : IsTree child root nodes place) (hc : ∀ u, u = root ∨ nodes u → ∀ i, child' u i = child u i) :
    IsTree child' root nodes place where
  root_not := h.root_not
  place_root := h.place_root
  child_iff ht := by
    intro i c
    rw [hc _ ht, h.child_iff ht]
  parent := h.parent

/-- Hangs a fresh node without children into an empty slot. -/
theorem link [DecidableEq ν] (h : IsTree child root nodes place) (ht : t = root ∨ nodes t) (hempty : child t i = none)
    (hfresh : ¬(c = root ∨ nodes c)) (hslot : child' t i = some c) (hrow : ∀ j, child' c j = none)
    (hother : ∀ u, u = root ∨ nodes u → ∀ j, (u = t → j ≠ i) → child' u j = child u j) :
    IsTree child' root (fun n => n = c ∨ nodes n) (Function.update place c (place t ++ [i])) where
  root_not := by
    rintro (hroot | hroot)
    · exact hfresh (.inl hroot.symm)
    · exact h.root_not hroot
  place_root := by
    rw [Function.update_of_ne (fun hr => hfresh (.inl hr.symm)), h.place_root]
  child_iff := by
    -- no old node sits at the new place
    have hnone : ∀ d, nodes d → place d ≠ place t ++ [i] := fun d hd hp => by
      simp [(h.child_iff ht).2 ⟨hd, hp⟩] at hempty
    have hold : ∀ d, nodes d → d ≠ c := fun d hd hdc => hfresh (.inr (hdc ▸ hd))
    intro u hu j d
    by_cases huc : u = c
    · subst huc
      rw [hrow, Function.update_self]
      refine ⟨fun hf => (nomatch hf), fun ⟨hd, hp⟩ => ?_⟩
      exfalso
      rcases hd with rfl | hd
      · simp at hp
      · rw [Function.update_of_ne (hold d hd)] at hp
        obtain ⟨w, hw, hpw⟩ := h.prefix_closed (.inr hd) hp
        refine hnone w (hw.resolve_left ?_) hpw
        rintro rfl
        simp [h.place_root] at hpw
    · have hu' : u = root ∨ nodes u := by tauto
      rw [Function.update_of_ne huc]
      by_cases hslot' : u = t ∧ j = i
      · obtain ⟨rfl, rfl⟩ := hslot'
        rw [hslot]
        constructor
        · rintro ⟨⟩
          exact ⟨.inl rfl, Function.update_self ..⟩
        · rintro ⟨rfl | hd, hp⟩
          · rfl
          · rw [Function.update_of_ne (hold d hd)] at hp
            exact absurd hp (hnone d hd)
      · rw [hother u hu' j (by tauto), h.child_iff hu']
        constructor
        · rintro ⟨hd, hp⟩
          exact ⟨.inr hd, by rw [Function.update_of_ne (hold d hd), hp]⟩
        · rintro ⟨rfl | hd, hp⟩
          · rw [Function.update_self] at hp
            obtain ⟨hp, hi⟩ := List.append_inj' hp rfl
            exact absurd ⟨h.place_inj hu' ht hp.symm, by simpa using hi.symm⟩ hslot'
          · rw [Function.update_of_ne (hold d hd)] at hp
            exact ⟨hd, hp⟩
  parent := by
    have hold : ∀ d, d = root ∨ nodes d → d ≠ c := fun d hd hdc => hfresh (hdc ▸ hd)
    rintro d (rfl | hd)
    · exact ⟨t, i, by tauto, by rw [Function.update_self, Function.update_of_ne (hold t ht)]⟩
    · obtain ⟨w, j, hw, hp⟩ := h.parent hd
      exact ⟨w, j, by tauto, by rw [Function.update_of_ne (hold d (.inr hd)), Function.update_of_ne (hold w hw), hp]⟩

theorem unlink (h : IsTree child root nodes place) (ht : t = root ∨ nodes t) (hc : child t i = some c)
    (hrow : ∀ j, child c j = none) (hslot : child' t i = none)
    (hother : ∀ u, u = root ∨ nodes u → u ≠ c → ∀ j, (u = t → j ≠ i) → child' u j = child u j) :
    IsTree child' root (fun n => nodes n ∧ n ≠ c) place where
  root_not hr := h.root_not hr.1
  place_root := h.place_root
  child_iff := by
    obtain ⟨hcn, hcp⟩ := (h.child_iff ht).1 hc
    intro u hu j d
    have hu' : u = root ∨ nodes u := by tauto
    have huc : u ≠ c := by
      rcases hu with rfl | hu
      · exact (h.ne_root hcn).symm
      · exact hu.2
    by_cases hslot' : u = t ∧ j = i
    · obtain ⟨rfl, rfl⟩ := hslot'
      rw [hslot]
      refine ⟨fun hf => (nomatch hf), fun ⟨hd, hp⟩ => ?_⟩
      exact absurd (h.place_inj (.inr hd.1) (.inr hcn) (hp.trans hcp.symm)) hd.2
    · rw [hother u hu' huc j (by tauto), h.child_iff hu']
      constructor
      · rintro ⟨hd, hp⟩
        refine ⟨⟨hd, ?_⟩, hp⟩
        rintro rfl
        obtain ⟨hp, hi⟩ := List.append_inj' (hp.symm.trans hcp) rfl
        exact hslot' ⟨h.place_inj hu' ht hp, by simpa using hi⟩
      · rintro ⟨hd, hp⟩
        exact ⟨hd.1, hp⟩
  parent := by
    rintro d ⟨hd, hdc⟩
    obtain ⟨w, j, hw, hp⟩ := h.parent hd
    refine ⟨w, j, ?_, hp⟩
    rcases hw with rfl | hw
    · exact .inl rfl
    · refine .inr ⟨hw, ?_⟩
      rintro rfl
      -- a childless node is nobody's parent
      have := (h.child_iff (.inr hw)).2 ⟨hd, hp⟩
      simp [hrow] at this

theorem bare (hroot : place root = []) (hrow : ∀ i, child root i = none) (hnodes : ∀ n, ¬nodes n) :
    IsTree child root nodes place where
  root_not := hnodes root
  place_root := hroot
  child_iff ht := by
    intro i c
    rcases ht with rfl | ht
    · simp [hrow, hnodes]
    · exact absurd ht (hnodes _)
  parent hc := absurd hc (hnodes _)

end IsTree

end NodeTree
