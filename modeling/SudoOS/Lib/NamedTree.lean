import Mathlib

/-!
Trees given by their named edges. Inner vertices are the ones that may have edges of their own and are named only once;
other vertices may have several names.
-/

namespace NamedTree

variable {V L : Type*}

section defs
variable (E : V → L → V → Prop)

def Edge (p c : V) : Prop := ∃ l, E p l c

def Below : V → V → Prop := Relation.ReflTransGen (Edge E)

structure IsTree (inner : V → Prop) (root : V) : Prop where
  inner_of_edge : ∀ {p l c}, E p l c → inner p
  child : ∀ {p l c c'}, E p l c → E p l c' → c = c'
  unique : ∀ {p l q m c}, inner c → E p l c → E q m c → p = q ∧ l = m
  root_unnamed : ∀ {p l}, ¬ E p l root
  reached : ∀ {p l c}, E p l c → Below E root p

def add (p : V) (l : L) (c : V) : V → L → V → Prop := fun q m d => E q m d ∨ q = p ∧ m = l ∧ d = c

def cut (p : V) (l : L) : V → L → V → Prop := fun q m d => E q m d ∧ ¬ (q = p ∧ m = l)

def Leaf (v : V) : Prop := ∀ l c, ¬ E v l c

end defs

variable {E E' : V → L → V → Prop} {inner inner' : V → Prop} {root p q c v w : V} {l m : L}

theorem Below.mono (h : Below E v w) (hE : ∀ {p l c}, E p l c → E' p l c) : Below E' v w :=
  Relation.ReflTransGen.mono (fun _ _ ⟨l, hedge⟩ => ⟨l, hE hedge⟩) _ _ h

theorem Below.edge (h : Below E v p) (hedge : E p l c) : Below E v c := Relation.ReflTransGen.tail h ⟨l, hedge⟩

theorem Leaf.below (hleaf : Leaf E v) (h : Below E v w) : w = v := by
  induction h with
  | refl => rfl
  | tail _ hedge ih =>
    obtain ⟨l, hedge⟩ := hedge
    exact absurd (ih ▸ hedge) (hleaf _ _)

/-- A new edge to a leaf leads nowhere else. -/
theorem Below.of_add (hleaf : Leaf E c) (hw : w ≠ c) (h : Below (add E p l c) v w) : Below E v w := by
  induction h with
  | refl => exact .refl
  | @tail u w _ hedge ih =>
    obtain ⟨m, hedge | ⟨rfl, rfl, rfl⟩⟩ := hedge
    · have hu : u ≠ c := fun heq => hleaf m w (heq ▸ hedge)
      exact (ih hu).edge hedge
    · exact absurd rfl hw

namespace IsTree

theorem congr_inner (h : IsTree E inner root) (hp : ∀ {p l c}, E p l c → inner' p)
    (hc : ∀ {p l c}, E p l c → inner' c → inner c) : IsTree E inner' root where
  inner_of_edge := hp
  child := h.child
  unique hi hedge hedge' := h.unique (hc hedge hi) hedge hedge'
  root_unnamed := h.root_unnamed
  reached := h.reached

/-- No vertex comes below itself. -/
theorem acyclic (h : IsTree E inner root) : ¬ Relation.TransGen (Edge E) v v := by
  intro hcycle
  obtain ⟨u, ⟨l, hedge⟩, -⟩ := Relation.TransGen.head'_iff.1 hcycle
  have hreach := h.reached hedge
  clear hedge
  -- along the way from the root: the edge that closes the cycle is the edge by which the vertex was reached
  induction hreach with
  | refl =>
    obtain ⟨u, -, l, hedge⟩ := Relation.TransGen.tail'_iff.1 hcycle
    exact h.root_unnamed hedge
  | @tail p v hreach hedge ih =>
    obtain ⟨m, hedge⟩ := hedge
    obtain ⟨u, hback, n, hclose⟩ := Relation.TransGen.tail'_iff.1 hcycle
    obtain ⟨w, ⟨k, hout⟩, -⟩ := Relation.TransGen.head'_iff.1 hcycle
    obtain ⟨rfl, rfl⟩ := h.unique (h.inner_of_edge hout) hclose hedge
    exact ih (Relation.TransGen.head' ⟨n, hclose⟩ hback)

/-- A new leaf, or one more name for a vertex that is not an inner one. -/
theorem add (h : IsTree E inner root) (hreach : Below E root p) (hp : inner p) (hfree : ∀ d, ¬ E p l d) (hroot : c ≠ root)
    (hc : inner c → ∀ q m, ¬ E q m c) : IsTree (add E p l c) inner root where
  inner_of_edge := by
    rintro q m d (hedge | ⟨rfl, rfl, rfl⟩)
    · exact h.inner_of_edge hedge
    · exact hp
  child := by
    rintro q m d d' (hedge | ⟨rfl, rfl, rfl⟩) (hedge' | ⟨heq, heq', rfl⟩)
    · exact h.child hedge hedge'
    · subst heq heq'
      exact absurd hedge (hfree _)
    · exact absurd hedge' (hfree _)
    · rfl
  unique := by
    rintro q m q' m' d hd (hedge | ⟨rfl, rfl, rfl⟩) (hedge' | ⟨heq, heq', hsame⟩)
    · exact h.unique hd hedge hedge'
    · exact absurd (hsame ▸ hedge) (hc (hsame ▸ hd) _ _)
    · exact absurd hedge' (hc hd _ _)
    · exact ⟨heq.symm, heq'.symm⟩
  root_unnamed := by
    rintro q m (hedge | ⟨-, -, heq⟩)
    · exact h.root_unnamed hedge
    · exact hroot heq.symm
  reached := by
    rintro q m d (hedge | ⟨rfl, -, -⟩)
    · exact (h.reached hedge).mono .inl
    · exact hreach.mono .inl

/-- What is reached without passing the edge is reached after it is cut. -/
theorem below_cut (h : IsTree E inner root) (hedge : E p l c) (hout : ¬ Below E c w) (hreach : Below E v w) :
    Below (cut E p l) v w := by
  induction hreach with
  | refl => exact .refl
  | @tail u w _ hstep ih =>
    obtain ⟨m, hstep⟩ := hstep
    refine (ih fun hbelow => hout (hbelow.edge hstep)).edge ⟨hstep, ?_⟩
    rintro ⟨rfl, rfl⟩
    exact hout (h.child hedge hstep ▸ .refl)

theorem cut (h : IsTree E inner root) (hedge : E p l c) (hleaf : Leaf E c) : IsTree (cut E p l) inner root where
  inner_of_edge hedge := h.inner_of_edge hedge.1
  child hedge hedge' := h.child hedge.1 hedge'.1
  unique hd hedge hedge' := h.unique hd hedge.1 hedge'.1
  root_unnamed hedge := h.root_unnamed hedge.1
  reached := by
    rintro q m d ⟨hstep, -⟩
    refine h.below_cut hedge (fun hbelow => ?_) (h.reached hstep)
    exact hleaf _ _ (hleaf.below hbelow ▸ hstep)

/-- A subtree is moved to a free place outside of it. -/
theorem move (h : IsTree E inner root) (hedge : E p l c) (hreach : Below E root q) (hq : inner q) (hfree : ∀ d, ¬ E q m d)
    (hout : ¬ Below E c q) : IsTree (NamedTree.add (NamedTree.cut E p l) q m c) inner root where
  inner_of_edge := by
    rintro u k d (⟨hstep, -⟩ | ⟨rfl, rfl, rfl⟩)
    · exact h.inner_of_edge hstep
    · exact hq
  child := by
    rintro u k d d' (⟨hstep, -⟩ | ⟨rfl, rfl, rfl⟩) (⟨hstep', -⟩ | ⟨heq, heq', rfl⟩)
    · exact h.child hstep hstep'
    · subst heq heq'
      exact absurd hstep (hfree _)
    · exact absurd hstep' (hfree _)
    · rfl
  unique := by
    rintro u k u' k' d hd (⟨hstep, hne⟩ | ⟨rfl, rfl, rfl⟩) (⟨hstep', hne'⟩ | ⟨heq, heq', hsame⟩)
    · exact h.unique hd hstep hstep'
    · exact absurd (h.unique hd hstep (hsame ▸ hedge)) hne
    · exact absurd (h.unique hd hstep' hedge) hne'
    · exact ⟨heq.symm, heq'.symm⟩
  root_unnamed := by
    rintro u k (⟨hstep, -⟩ | ⟨-, -, rfl⟩)
    · exact h.root_unnamed hstep
    · exact h.root_unnamed hedge
  reached := by
    -- the new place is reached as before; what was reached over the old edge is reached over the new one
    have hnew : Below (NamedTree.add (NamedTree.cut E p l) q m c) root q := (h.below_cut hedge hout hreach).mono .inl
    have hall : ∀ {w}, Below E root w → Below (NamedTree.add (NamedTree.cut E p l) q m c) root w := by
      intro w hw
      induction hw with
      | refl => exact .refl
      | @tail u w _ hstep ih =>
        obtain ⟨k, hstep⟩ := hstep
        by_cases hold : u = p ∧ k = l
        · obtain ⟨rfl, rfl⟩ := hold
          exact h.child hedge hstep ▸ hnew.edge (.inr ⟨rfl, rfl, rfl⟩)
        · exact ih.edge (.inl ⟨hstep, hold⟩)
    rintro u k d (⟨hstep, -⟩ | ⟨rfl, rfl, rfl⟩)
    · exact hall (h.reached hstep)
    · exact hnew

end IsTree

end NamedTree
