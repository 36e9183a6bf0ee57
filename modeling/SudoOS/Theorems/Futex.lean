import SudoOS.Kernel.Futex
import SudoOS.Theorems.UserMemory

/-! An entry of the table of futex queues stays there once a call has been made for its key. -/

namespace SudoOS.Futex

/-! ### The table of queues -/

section table
variable {s t : State} {key : Key} {queues : Queues}

def system : TransitionSystem State Event where
  init s := s.queues = [] ∧ s.calls = [] ∧ s.used = []
  step s event t := s.step event = some t

def keys (queues : Queues) : List Key := queues.map Prod.fst

@[simp] theorem keys_onQueue (f : FutexQueue → FutexQueue) : keys (onQueue key f queues) = keys queues := by
  unfold keys onQueue
  rw [List.map_map]
  refine List.map_congr_left fun entry _ => ?_
  dsimp only [Function.comp]
  split_ifs <;> rfl

theorem keys_getFutexQueueByKey : keys (getFutexQueueByKey queues key) =
    if key ∈ keys queues then keys queues else keys queues ++ [key] := by
  have hmem : queues.any (·.1 == key) = true ↔ key ∈ keys queues := by
    simp [keys]
  unfold getFutexQueueByKey
  by_cases h : key ∈ keys queues
  · rw [if_pos (hmem.2 h), if_pos h]
  · rw [if_neg (fun ha => h (hmem.1 ha)), if_neg h, keys, List.map_append]
    rfl

structure Kept (s : State) : Prop where
  nodup : (keys s.queues).Nodup
  mem_iff : ∀ key, key ∈ keys s.queues ↔ key ∈ s.used

theorem Kept.of_keys (h : Kept s) (hkeys : keys t.queues = keys s.queues) (hused : t.used = s.used) : Kept t := by
  constructor
  · rw [hkeys]
    exact h.nodup
  · rw [hkeys, hused]
    exact h.mem_iff

theorem Kept.fetch (h : Kept s) (hkeys : keys t.queues = keys (getFutexQueueByKey s.queues key))
    (hused : t.used = key :: s.used) : Kept t := by
  rw [keys_getFutexQueueByKey] at hkeys
  split_ifs at hkeys with hmem
  · refine ⟨hkeys ▸ h.nodup, fun k => ?_⟩
    rw [hkeys, hused, List.mem_cons, h.mem_iff]
    refine ⟨.inr, ?_⟩
    rintro (rfl | hk)
    · exact (h.mem_iff k).1 hmem
    · exact hk
  · refine ⟨?_, fun k => ?_⟩
    · rw [hkeys, List.nodup_append]
      refine ⟨h.nodup, List.nodup_singleton _, fun k hk k' hk' heq => hmem ?_⟩
      rw [List.mem_singleton] at hk'
      exact hk' ▸ heq ▸ hk
    · rw [hkeys, hused, List.mem_append, List.mem_singleton, List.mem_cons, h.mem_iff, or_comm]

theorem Kept.step {event : Event} (h : Kept s) (hstep : s.step event = some t) : Kept t := by
  cases event with
  | wait tid key =>
    simp only [State.step] at hstep
    split_ifs at hstep
    cases hstep
    exact h.fetch rfl rfl
  | wake tid key count =>
    simp only [State.step] at hstep
    split at hstep
    · cases hstep
    · cases hstep
      exact h.fetch (by simp only [keys_onQueue]) rfl
  | block tid =>
    simp only [State.step] at hstep
    split at hstep
    · split_ifs at hstep
      · cases hstep
        exact h.of_keys (by simp only [keys_onQueue]) rfl
      · cases hstep
        exact h.of_keys rfl rfl
    · cases hstep
  | leave tid =>
    simp only [State.step] at hstep
    split at hstep
    · cases hstep
      exact h.of_keys (by simp only [keys_onQueue]) rfl
    · cases hstep
      exact h.of_keys (by simp only [keys_onQueue]) rfl
    · cases hstep
  | wakeOne tid =>
    simp only [State.step] at hstep
    split at hstep
    · split_ifs at hstep
      · cases hstep
        exact h.of_keys rfl rfl
      · cases hstep
        exact h.of_keys (by simp only [keys_onQueue]) rfl
    · cases hstep

theorem Kept.length (h : Kept s) : s.queues.length = s.used.dedup.length := by
  have hperm : (keys s.queues).Perm s.used.dedup :=
    (List.perm_ext_iff_of_nodup h.nodup (List.nodup_dedup _)).2 fun key => by rw [h.mem_iff, List.mem_dedup]
  rw [← hperm.length_eq, keys, List.length_map]

/-- The table has no more entries than there are calls in progress exactly if no more keys have been used so far. -/
theorem table_bounded_iff (h : system.Reachable s) :
    s.queues.length ≤ s.calls.length ↔ s.used.dedup.length ≤ s.calls.length := by
  have hkept : Kept s := by
    refine h.invariant (I := Kept) ?_ fun s event t hs hstep => hs.step hstep
    rintro s ⟨hqueues, -, hused⟩
    refine ⟨?_, fun key => ?_⟩
    · rw [hqueues]
      exact List.nodup_nil
    · rw [hqueues, hused]
      rfl
  rw [hkept.length]

def boot : State := ⟨[], [], []⟩

def waitAndWake : List Event := [.wait 1 (1, 0x1000), .block 1, .wake 2 (1, 0x1000) 1, .wakeOne 2, .wakeOne 2, .leave 1]

theorem reachable_of_play (events : List Event) (h : TransitionSystem.play State.step boot events = some t) :
    system.Reachable t :=
  TransitionSystem.Reachable.later (.init ⟨rfl, rfl, rfl⟩) (TransitionSystem.play_later (fun hstep => hstep) h)

theorem table_bounded_iff_waiting : ∃ s, system.Reachable s ∧ s.queues.length = 1 ∧
    (s.queues.length ≤ s.calls.length ↔ s.used.dedup.length ≤ s.calls.length) :=
  have hplay : TransitionSystem.play State.step boot (waitAndWake.take 2) = some _ := rfl
  ⟨_, reachable_of_play _ hplay, rfl, table_bounded_iff (reachable_of_play _ hplay)⟩

/-- After the calls nobody uses a futex, but the entry is still there. -/
theorem table_entry_stays : ∃ s, system.Reachable s ∧ s.calls = [] ∧ s.queues.length = 1 :=
  ⟨_, reachable_of_play waitAndWake rfl, rfl, rfl⟩

end table

/-! ### Robust futexes -/

section robust
variable {memory : UserMemory} {head offset tid node : Nat} {s : Cleanup} {nodes : List Nat}

inductive Marks (tid : Nat) (memory : UserMemory) : List Nat → UserMemory → Prop
  | nil : Marks tid memory [] memory
  | snoc {marked : List Nat} {before after : UserMemory} {address word : Nat} : Marks tid memory marked before →
      readNumber before 4 address = some word → word &&& futexTidMask = tid % 2 ^ 32 →
      before.copyToUser address (LittleEndian.bytes 4 (deadWord word)) = some after →
        Marks tid memory (marked ++ [address]) after

structure Cleanup.Sound (tid : Nat) (memory : UserMemory) (s : Cleanup) : Prop where
  marks : Marks tid memory s.marked s.memory
  wakes : s.wakeAddrs = s.marked.take maxRobustNodes

theorem take_snoc {α : Type*} {l : List α} {n : Nat} {a : α} :
    (if (l.take n).length < n then l.take n ++ [a] else l.take n) = (l ++ [a]).take n := by
  rw [List.length_take, List.take_append]
  by_cases h : l.length < n
  · rw [if_pos (by omega), show [a].take (n - l.length) = [a] from List.take_of_length_le (by simp; omega)]
  · rw [if_neg (by omega), show n - l.length = 0 by omega, List.take_zero, List.append_nil]

/-- The word of a node belongs to the thread and can be written; `after` is the memory with the word marked. -/
structure Owned (head offset tid : Nat) (memory : UserMemory) (node : Nat) (after : UserMemory) : Prop where
  node_ne : ¬(node = 0 ∨ node = head)
  word : ∃ address word, futexAddress offset node = some address ∧ readNumber memory 4 address = some word ∧
    word &&& futexTidMask = tid % 2 ^ 32 ∧ memory.copyToUser address (LittleEndian.bytes 4 (deadWord word)) = some after

theorem Cleanup.mark_cases (head offset tid : Nat) (s : Cleanup) (node : Nat) :
    (s.mark head offset tid node = { s with visited := s.visited ++ [node] } ∧ ∀ after,
      ¬Owned head offset tid s.memory node after) ∨
    ∃ address word after, futexAddress offset node = some address ∧ readNumber s.memory 4 address = some word ∧
      word &&& futexTidMask = tid % 2 ^ 32 ∧ s.memory.copyToUser address (LittleEndian.bytes 4 (deadWord word)) =
        some after ∧
      ¬(node = 0 ∨ node = head) ∧ s.mark head offset tid node =
        ⟨after, if s.wakeAddrs.length < maxRobustNodes then s.wakeAddrs ++ [address] else s.wakeAddrs, s.visited ++ [node],
          s.marked ++ [address]⟩ := by
  unfold Cleanup.mark
  dsimp only
  by_cases hnode : node = 0 ∨ node = head
  · rw [if_pos hnode]
    exact .inl ⟨rfl, fun _ h => h.node_ne hnode⟩
  rw [if_neg hnode]
  cases haddress : futexAddress offset node with
  | none =>
    refine .inl ⟨rfl, fun after h => ?_⟩
    obtain ⟨_, _, h, -⟩ := h.word
    cases haddress.symm.trans h
  | some address =>
    dsimp only
    cases hword : readNumber s.memory 4 address with
    | none =>
      refine .inl ⟨rfl, fun after h => ?_⟩
      obtain ⟨_, _, h, h', -⟩ := h.word
      cases haddress.symm.trans h
      cases hword.symm.trans h'
    | some word =>
      dsimp only
      by_cases howner : word &&& futexTidMask = tid % 2 ^ 32
      · rw [if_neg (not_not.2 howner)]
        cases hafter : s.memory.copyToUser address (LittleEndian.bytes 4 (deadWord word)) with
        | none =>
          refine .inl ⟨rfl, fun after h => ?_⟩
          obtain ⟨_, _, h, h', -, h''⟩ := h.word
          cases haddress.symm.trans h
          cases hword.symm.trans h'
          cases hafter.symm.trans h''
        | some after => exact .inr ⟨address, word, after, rfl, hword, howner, hafter, hnode, rfl⟩
      · rw [if_pos howner]
        refine .inl ⟨rfl, fun after h => ?_⟩
        obtain ⟨_, _, h, h', howned, -⟩ := h.word
        cases haddress.symm.trans h
        cases hword.symm.trans h'
        exact howner howned

/-- A node adds a mark exactly if its word belongs to the thread. -/
theorem Cleanup.marked_mark (head offset tid : Nat) (s : Cleanup) (node : Nat) :
    ((s.mark head offset tid node).marked.length = s.marked.length ∧ ∀ after, ¬Owned head offset tid s.memory node after) ∨
    ((s.mark head offset tid node).marked.length = s.marked.length + 1 ∧
      Owned head offset tid s.memory node (s.mark head offset tid node).memory) := by
  rcases s.mark_cases head offset tid node with ⟨heq, hnot⟩ | ⟨address, word, after, haddress, hword, howner,
    hafter, hnode, heq⟩
  · rw [heq]
    exact .inl ⟨rfl, hnot⟩
  · rw [heq]
    exact .inr ⟨by simp, hnode, address, word, haddress, hword, howner, hafter⟩

theorem Cleanup.Sound.mark (h : s.Sound tid memory) (node : Nat) : (s.mark head offset tid node).Sound tid memory := by
  rcases s.mark_cases head offset tid node with ⟨heq, -⟩ | ⟨address, word, after, -, hword, howner, hafter, -, heq⟩
  · rw [heq]
    exact ⟨h.marks, h.wakes⟩
  · rw [heq, h.wakes]
    exact ⟨h.marks.snoc hword howner hafter, take_snoc⟩

theorem Cleanup.Sound.walk {count : Nat} (h : s.Sound tid memory) :
    (s.walk head offset tid count node).Sound tid memory := by
  induction count generalizing node s with
  | zero => exact h
  | succ count ih =>
    rw [Cleanup.walk]
    split_ifs
    · exact h
    · dsimp only
      split
      · exact h.mark node
      · exact ih (h.mark node)

def Links (memory : UserMemory) (head : Nat) : Nat → List Nat → Prop
  | node, [] => node = 0 ∨ node = head
  | node, n :: rest => node = n ∧ n ≠ 0 ∧ n ≠ head ∧ ∃ next, readNumber memory 8 n = some next ∧ Links memory head next rest

structure WellFormed (memory : UserMemory) (head first offset : Nat) (nodes : List Nat) : Prop where
  links : Links memory head first nodes
  short : nodes.length ≤ maxRobustNodes
  apart : ∀ n ∈ nodes, ∀ word, futexAddress offset n = some word → ∀ n' ∈ nodes, word + 4 ≤ n' ∨ n' + 8 ≤ word

theorem readNumber_store {after : UserMemory} {address at_ size : Nat} {input : List (BitVec 8)}
    (h : memory.copyToUser address input = some after) (hapart : address + input.length ≤ at_ ∨ at_ + size ≤ address) :
    readNumber after size at_ = readNumber memory size at_ := by
  rw [readNumber, readNumber, UserMemory.copyFromUser_of_apart h hapart]

theorem Cleanup.visited_mark : (s.mark head offset tid node).visited = s.visited ++ [node] := by
  rcases s.mark_cases head offset tid node with ⟨heq, -⟩ | ⟨address, word, after, -, -, -, -, -, heq⟩ <;> rw [heq]

theorem Cleanup.readNumber_mark {at_ size : Nat}
    (hapart : ∀ word, futexAddress offset node = some word → word + 4 ≤ at_ ∨ at_ + size ≤ word) :
    readNumber (s.mark head offset tid node).memory size at_ = readNumber s.memory size at_ := by
  rcases s.mark_cases head offset tid node with ⟨heq, -⟩ | ⟨address, word, after, haddress, -, -, hafter, -, heq⟩
  · rw [heq]
  · rw [heq]
    refine readNumber_store hafter ?_
    rw [LittleEndian.length_bytes]
    exact hapart address haddress

theorem Cleanup.visited_walk {count : Nat} {all : List Nat} (hsub : nodes ⊆ all) (hlinks : Links memory head node nodes)
    (hcount : nodes.length ≤ count) (hread : ∀ n ∈ all, readNumber s.memory 8 n = readNumber memory 8 n)
    (hapart : ∀ n ∈ all, ∀ word, futexAddress offset n = some word → ∀ n' ∈ all, word + 4 ≤ n' ∨ n' + 8 ≤ word) :
    (s.walk head offset tid count node).visited = s.visited ++ nodes := by
  induction nodes generalizing node s count with
  | nil =>
    rw [List.append_nil]
    cases count with
    | zero => rfl
    | succ count =>
      have hend : node = 0 ∨ node = head := hlinks
      rw [Cleanup.walk, if_pos hend]
  | cons n rest ih =>
    obtain ⟨rfl, hzero, hhead, next, hnext, hrest⟩ := hlinks
    cases count with
    | zero => cases hcount
    | succ count =>
      have hn : node ∈ all := hsub List.mem_cons_self
      have hmark : ∀ n ∈ all, readNumber (s.mark head offset tid node).memory 8 n = readNumber memory 8 n := fun n' hn' =>
        (Cleanup.readNumber_mark fun word hword => hapart node hn word hword n' hn').trans (hread n' hn')
      rw [Cleanup.walk, if_neg (by tauto)]
      dsimp only
      rw [hmark node hn, hnext]
      have hvisited := ih (fun n' hn' => hsub (List.mem_cons_of_mem _ hn')) hrest (Nat.le_of_succ_le_succ hcount) hmark
      rw [hvisited, Cleanup.visited_mark, List.append_assoc]
      rfl

/-- What the cleanup is for: it marks words of the thread and no others, it visits a whole list with the pending node, and
it wakes each word that it marks. -/
structure Cleans (memory : UserMemory) (head tid : Nat) (s : Cleanup) : Prop where
  marks : Marks tid memory s.marked s.memory
  visits : ∀ first offset nodes, head ≠ 0 → readNumber memory 8 head = some first →
    readNumber memory 8 (min (head + 8) (usizeLimit - 1)) = some offset → WellFormed memory head first offset nodes →
    s.visited = nodes ++ if robustPending memory head ≠ 0 then [robustPending memory head] else []
  wakes : s.wakeAddrs = s.marked

theorem cleanup_sound (memory : UserMemory) (head tid : Nat) :
    (cleanupRobustListOnExit memory head tid).Sound tid memory := by
  have hstart : Cleanup.Sound tid memory { memory } := ⟨.nil, rfl⟩
  unfold cleanupRobustListOnExit
  split
  · exact hstart
  split
  · dsimp only
    split
    · exact hstart.walk.mark _
    · exact hstart.walk
  · exact hstart

theorem cleanup_visits {first : Nat} (hhead : head ≠ 0) (hfirst : readNumber memory 8 head = some first)
    (hoffset : readNumber memory 8 (min (head + 8) (usizeLimit - 1)) = some offset)
    (hnodes : WellFormed memory head first offset nodes) : (cleanupRobustListOnExit memory head tid).visited =
      nodes ++ if robustPending memory head ≠ 0 then [robustPending memory head] else [] := by
  have hwalk : (Cleanup.walk head offset tid maxRobustNodes first { memory }).visited = nodes :=
    Cleanup.visited_walk (List.Subset.refl _) hnodes.links hnodes.short (fun _ _ => rfl) hnodes.apart
  rw [cleanupRobustListOnExit, if_neg hhead, hfirst, hoffset]
  dsimp only
  split_ifs
  · rw [Cleanup.visited_mark, hwalk]
  · rw [hwalk, List.append_nil]

/-- Nodes in a row whose words all belong to the thread. What is marked is marked for the nodes that follow. -/
inductive OwnedRun (head offset tid : Nat) : UserMemory → Nat → List Nat → UserMemory → Prop
  | last {memory after : UserMemory} {node : Nat} : Owned head offset tid memory node after →
      OwnedRun head offset tid memory node [node] after
  | cons {memory middle after : UserMemory} {node next : Nat} {rest : List Nat} : Owned head offset tid memory node middle →
      readNumber middle 8 node = some next → OwnedRun head offset tid middle next rest after →
      OwnedRun head offset tid memory node (node :: rest) after

/-- The list begins with 256 nodes of the thread, and the pending node is one as well. -/
structure Overfull (memory : UserMemory) (head tid : Nat) : Prop where
  head_ne : head ≠ 0
  list : ∃ first offset nodes middle after, readNumber memory 8 head = some first ∧
    readNumber memory 8 (min (head + 8) (usizeLimit - 1)) = some offset ∧
      OwnedRun head offset tid memory first nodes middle ∧
    nodes.length = maxRobustNodes ∧ Owned head offset tid middle (robustPending memory head) after

theorem Cleanup.marked_walk_le (s : Cleanup) (count node : Nat) : (s.walk head offset tid count node).marked.length ≤
    s.marked.length + count := by
  induction count generalizing node s with
  | zero => exact le_rfl
  | succ count ih =>
    have hmark : (s.mark head offset tid node).marked.length ≤ s.marked.length + 1 := by
      rcases s.marked_mark head offset tid node with h | h <;> omega
    rw [Cleanup.walk]
    split_ifs
    · omega
    · dsimp only
      split
      · omega
      · next next _ =>
        have := ih (s.mark head offset tid node) next
        omega

theorem Owned.unique {after after' : UserMemory} (h : Owned head offset tid memory node after)
    (h' : Owned head offset tid memory node after') : after = after' := by
  obtain ⟨address, word, haddress, hword, -, hstore⟩ := h.word
  obtain ⟨_, _, haddress', hword', -, hstore'⟩ := h'.word
  cases haddress.symm.trans haddress'
  cases hword.symm.trans hword'
  exact Option.some.inj (hstore.symm.trans hstore')

theorem Owned.mark {after : UserMemory} (h : Owned head offset tid s.memory node after) :
    (s.mark head offset tid node).marked.length = s.marked.length + 1 ∧ (s.mark head offset tid node).memory = after := by
  rcases s.marked_mark head offset tid node with ⟨-, hnot⟩ | ⟨hlength, howned⟩
  · exact absurd h (hnot after)
  · exact ⟨hlength, howned.unique h⟩

theorem OwnedRun.walk {after : UserMemory} (h : OwnedRun head offset tid memory node nodes after) (hs : s.memory = memory) :
    (s.walk head offset tid nodes.length node).marked.length = s.marked.length + nodes.length ∧
      (s.walk head offset tid nodes.length node).memory = after := by
  induction h generalizing s with
  | last howned =>
    subst hs
    obtain ⟨hlength, hmemory⟩ := howned.mark
    rw [List.length_singleton, Cleanup.walk, if_neg howned.node_ne]
    dsimp only
    split <;> exact ⟨hlength, hmemory⟩
  | cons howned hnext _ ih =>
    subst hs
    obtain ⟨hlength, hmemory⟩ := howned.mark
    obtain ⟨hrest, hafter⟩ := ih hmemory
    rw [List.length_cons, Cleanup.walk, if_neg howned.node_ne]
    dsimp only
    rw [hmemory, hnext]
    exact ⟨hrest.trans (by omega), hafter⟩

/-- A walk that marks as many words as it may has found that many nodes of the thread in a row. -/
theorem Cleanup.ownedRun_of_walk {count : Nat}
    (h : (s.walk head offset tid (count + 1) node).marked.length = s.marked.length + (count + 1)) :
    ∃ nodes, OwnedRun head offset tid s.memory node nodes (s.walk head offset tid (count + 1) node).memory ∧
      nodes.length = count + 1 := by
  induction count generalizing s node with
  | zero =>
    rw [Cleanup.walk] at h ⊢
    split_ifs at h ⊢
    · omega
    · dsimp only at h ⊢
      have hlast : ∀ r : Cleanup, r = s.mark head offset tid node → r.marked.length = s.marked.length + (0 + 1) →
          ∃ nodes, OwnedRun head offset tid s.memory node nodes r.memory ∧ nodes.length = 0 + 1 := by
        rintro _ rfl hlength
        rcases s.marked_mark head offset tid node with ⟨hsame, -⟩ | ⟨-, howned⟩
        · omega
        · exact ⟨[node], .last howned, rfl⟩
      split at h <;> exact hlast _ rfl h
  | succ count ih =>
    rw [Cleanup.walk] at h ⊢
    split_ifs at h ⊢
    · omega
    · dsimp only at h ⊢
      rcases s.marked_mark head offset tid node with ⟨hsame, -⟩ | ⟨hmore, howned⟩
      · split at h
        · omega
        · next next _ =>
          have := h.symm.trans_le ((s.mark head offset tid node).marked_walk_le (count + 1) next)
          omega
      · split at h
        · omega
        · next next hnext =>
          obtain ⟨nodes, hrun, hlength⟩ := ih (s := s.mark head offset tid node) (h.trans (by omega))
          exact ⟨node :: nodes, .cons howned hnext hrun, by rw [List.length_cons, hlength]⟩

theorem marked_le_iff (memory : UserMemory) (head tid : Nat) :
    (cleanupRobustListOnExit memory head tid).marked.length ≤ maxRobustNodes ↔ ¬Overfull memory head tid := by
  rw [← not_iff_not, not_not, Nat.not_le]
  refine Iff.symm ⟨?_, ?_⟩
  · rintro ⟨hhead, first, offset, nodes, middle, after, hfirst, hoffset, hrun, hlength, hpending⟩
    obtain ⟨hwalk, hmiddle⟩ := hrun.walk (s := { memory }) rfl
    rw [hlength] at hwalk hmiddle
    obtain ⟨hmore, -⟩ := Owned.mark (hmiddle.symm ▸ hpending)
    rw [cleanupRobustListOnExit, if_neg hhead, hfirst, hoffset]
    dsimp only
    rw [if_pos fun hz => hpending.node_ne (.inl hz), hmore, hwalk]
    exact Nat.lt_succ_of_le (Nat.le_add_left _ _)
  · intro hmany
    unfold cleanupRobustListOnExit at hmany
    by_cases hhead : head = 0
    · rw [if_pos hhead] at hmany
      cases hmany
    rw [if_neg hhead] at hmany
    split at hmany
    · next first offset hfirst hoffset =>
      have hle : (Cleanup.walk head offset tid maxRobustNodes first { memory }).marked.length ≤ 0 + maxRobustNodes :=
        Cleanup.marked_walk_le _ _ _
      dsimp only at hmany
      split_ifs at hmany
      · rcases Cleanup.marked_mark head offset tid (Cleanup.walk head offset tid maxRobustNodes first { memory })
          (robustPending memory head) with ⟨hsame, -⟩ | ⟨hmore, hpending⟩
        · omega
        · have hfull : (Cleanup.walk head offset tid (255 + 1) first { memory }).marked.length = 0 + (255 + 1) :=
            le_antisymm hle (Nat.le_of_lt_succ (hmany.trans_eq hmore))
          obtain ⟨nodes, hrun, hlength⟩ := Cleanup.ownedRun_of_walk hfull
          exact ⟨hhead, first, offset, nodes, _, _, hfirst, hoffset, hrun, hlength, hpending⟩
      · omega
    · cases hmany

/-- For any content of the memory: the cleanup does what it is for unless the list is overfull. -/
theorem robust_cleanup_iff (memory : UserMemory) (head tid : Nat) :
    Cleans memory head tid (cleanupRobustListOnExit memory head tid) ↔ ¬Overfull memory head tid := by
  rw [← marked_le_iff]
  obtain ⟨hmarks, hwakes⟩ := cleanup_sound memory head tid
  constructor
  · intro h
    rw [← h.wakes, hwakes]
    exact List.length_take_le _ _
  · intro hle
    refine ⟨hmarks, fun first offset nodes hhead hfirst hoffset hnodes => cleanup_visits hhead hfirst hoffset hnodes, ?_⟩
    rw [hwakes, List.take_of_length_le hle]

/-! A list that goes on and on, all of whose words belong to thread 1. -/

def listNode (i : Nat) : Nat := 0x1000 + 16 * i

def longList : UserMemory where
  bytes a :=
    if a < 16 then (LittleEndian.bytes 8 (listNode 0)).getD (a - 8) 0
    else if a < 24 then (LittleEndian.bytes 8 8).getD (a - 16) 0
    else if a < 32 then (LittleEndian.bytes 8 (listNode 256)).getD (a - 24) 0
    else if a % 16 < 8 then (LittleEndian.bytes 8 (a - a % 16 + 16)).getD (a % 16) 0
    else (LittleEndian.bytes 4 1).getD (a % 16 - 8) 0
  readable _ := true
  writable _ := true

structure Cleanup.Ahead (i : Nat) (s : Cleanup) : Prop where
  bytes : ∀ a, listNode i ≤ a → s.memory.bytes a = longList.bytes a
  readable : ∀ a, s.memory.readable a = true
  writable : ∀ a, s.memory.writable a = true

theorem readNumber_eq {m : UserMemory} {size address v : Nat} (hend : address + size ≤ userEnd)
    (hread : ∀ a, m.readable a = true)
    (hbytes : ∀ i < size, m.bytes (address + i) = (LittleEndian.bytes size v).getD i 0) (hv : v < 256 ^ size) :
    readNumber m size address = some v := by
  have hlist : (List.range size).map (fun i => m.bytes (address + i)) = LittleEndian.bytes size v := by
    refine List.ext_getElem (by simp) fun i hi hi' => ?_
    rw [List.getElem_map, List.getElem_range, hbytes i (by simpa using hi), List.getD_eq_getElem _ _ hi']
  have hcond : (decide (address + size ≤ userEnd) && (List.range size).all fun i => m.readable (address + i)) = true := by
    simp [hend, hread]
  rw [readNumber, UserMemory.copyFromUser, if_pos hcond, Option.map_some, hlist, LittleEndian.value_bytes,
    Nat.mod_eq_of_lt hv]

theorem Cleanup.Ahead.mark {i : Nat} (h : s.Ahead i) (hi : i ≤ 256) :
    (s.mark 8 8 1 (listNode i)).marked = s.marked ++ [listNode i + 8] ∧ (s.mark 8 8 1 (listNode i)).Ahead (i + 1) ∧
      readNumber (s.mark 8 8 1 (listNode i)).memory 8 (listNode i) = some (listNode (i + 1)) := by
  have hend : userEnd = 0x4000000000 := rfl
  have hnode : listNode i = 0x1000 + 16 * i := rfl
  have hnext : listNode (i + 1) = listNode i + 16 := by
    unfold listNode
    omega
  have hlink : readNumber s.memory 8 (listNode i) = some (listNode (i + 1)) := by
    refine readNumber_eq (by omega) h.readable (fun j hj => ?_) (by rw [hnext]; omega)
    have hmod : (listNode i + j) % 16 = j := by omega
    rw [h.bytes _ (by omega), longList]
    dsimp only
    rw [if_neg (by omega), if_neg (by omega), if_neg (by omega), hmod, if_pos hj, Nat.add_sub_cancel, hnext]
  have hword : readNumber s.memory 4 (listNode i + 8) = some 1 := by
    refine readNumber_eq (by omega) h.readable (fun j hj => ?_) (by decide)
    have hmod : (listNode i + 8 + j) % 16 = 8 + j := by omega
    rw [h.bytes _ (by omega), longList]
    dsimp only
    rw [if_neg (by omega), if_neg (by omega), if_neg (by omega), hmod, if_neg (by omega), Nat.add_sub_cancel_left]
  have haddress : futexAddress 8 (listNode i) = some (listNode i + 8) := by
    rw [futexAddress, if_pos (by decide), checkedAdd, if_pos (by unfold usizeLimit; omega)]
  have hstore : s.memory.copyToUser (listNode i + 8) (LittleEndian.bytes 4 (deadWord 1)) =
      some (s.memory.store (listNode i + 8) (LittleEndian.bytes 4 (deadWord 1))) := by
    rw [UserMemory.copyToUser, LittleEndian.length_bytes, if_pos]
    rw [Bool.and_eq_true, decide_eq_true_eq, List.all_eq_true]
    exact ⟨by omega, fun j _ => h.writable _⟩
  have hmarked : s.mark 8 8 1 (listNode i) = ⟨s.memory.store (listNode i + 8) (LittleEndian.bytes 4 (deadWord 1)),
      if s.wakeAddrs.length < maxRobustNodes then s.wakeAddrs ++ [listNode i + 8] else s.wakeAddrs,
      s.visited ++ [listNode i], s.marked ++ [listNode i + 8]⟩ := by
    rw [Cleanup.mark, if_neg (by omega), haddress]
    dsimp only
    rw [hword]
    dsimp only
    rw [if_neg (by decide), hstore]
  rw [hmarked]
  refine ⟨rfl, ⟨fun a ha => ?_, h.readable, h.writable⟩, ?_⟩
  · rw [← h.bytes a (by omega)]
    exact if_neg (by rw [LittleEndian.length_bytes]; omega)
  · rw [← hlink]
    exact readNumber_store hstore (.inr (by omega))

theorem Cleanup.Ahead.walk {i : Nat} (count : Nat) (h : s.Ahead i) (hcount : i + count ≤ 256) :
    (s.walk 8 8 1 count (listNode i)).marked.length = s.marked.length + count ∧
      (s.walk 8 8 1 count (listNode i)).Ahead (i + count) := by
  induction count generalizing i s with
  | zero => exact ⟨rfl, h⟩
  | succ count ih =>
    obtain ⟨hmarked, hahead, hnext⟩ := h.mark (by omega)
    obtain ⟨hlength, hrest⟩ := ih hahead (by omega)
    have hnode : listNode i = 0x1000 + 16 * i := rfl
    rw [Cleanup.walk, if_neg (by omega)]
    dsimp only
    rw [hnext]
    refine ⟨?_, ?_⟩
    · rw [hlength, hmarked, List.length_append, List.length_singleton]
      omega
    · rw [show i + (count + 1) = i + 1 + count by omega]
      exact hrest

/-- With 256 nodes and a pending one, the last mark is not followed by a wake. -/
theorem last_mark_not_woken : (cleanupRobustListOnExit longList 8 1).marked.length = 257 ∧
    ¬Cleans longList 8 1 (cleanupRobustListOnExit longList 8 1) := by
  have hlength : (cleanupRobustListOnExit longList 8 1).marked.length = 257 := by
    have hfirst : readNumber longList 8 8 = some (listNode 0) := by decide +kernel
    have hoffset : readNumber longList 8 (min (8 + 8) (usizeLimit - 1)) = some 8 := by decide +kernel
    have hpending : robustPending longList 8 = listNode 256 := by decide +kernel
    have hstart : Cleanup.Ahead 0 { memory := longList } := ⟨fun _ _ => rfl, fun _ => rfl, fun _ => rfl⟩
    obtain ⟨hwalk, hahead⟩ := hstart.walk 256 le_rfl
    obtain ⟨hmarked, -⟩ := hahead.mark le_rfl
    rw [cleanupRobustListOnExit, if_neg (by decide), hfirst, hoffset]
    dsimp only
    rw [hpending, if_pos (by decide), maxRobustNodes, hmarked, List.length_append, hwalk]
    rfl
  refine ⟨hlength, fun h => ?_⟩
  have hwakes := congrArg List.length (cleanup_sound longList 8 1).wakes
  rw [h.wakes, List.length_take, hlength] at hwakes
  exact absurd hwakes (by decide)

end robust

end SudoOS.Futex
