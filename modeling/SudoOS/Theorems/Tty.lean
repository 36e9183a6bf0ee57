import SudoOS.Kernel.Tty

/-! Lines on the console. -/

namespace SudoOS

/-! ### The ring -/

def firstLine : Nat → List UInt8 → List UInt8
  | 0, _ => []
  | _, [] => []
  | n + 1, byte :: rest => if byte = newline then [byte] else byte :: firstLine n rest

theorem firstLine_front : ∀ (n : Nat) (l : List UInt8), firstLine n l <+: l
  | 0, l => List.nil_prefix
  | n + 1, [] => List.nil_prefix
  | n + 1, byte :: rest => by
    rw [firstLine]
    split
    · exact ⟨rest, rfl⟩
    · exact List.prefix_cons_inj _ |>.2 (firstLine_front n rest)

theorem firstLine_dropLast : ∀ (n : Nat) (l : List UInt8), newline ∉ (firstLine n l).dropLast
  | 0, l => by simp [firstLine]
  | n + 1, [] => by simp [firstLine]
  | n + 1, byte :: rest => by
    rw [firstLine]
    split
    · simp
    · rename_i hbyte
      have ih := firstLine_dropLast n rest
      cases hline : firstLine n rest with
      | nil => simp
      | cons a l =>
        rw [hline] at ih
        rw [List.dropLast_cons_cons, List.mem_cons, not_or]
        exact ⟨Ne.symm hbyte, ih⟩

namespace TtyState

variable {s : TtyState} {byte : UInt8}

def contents (s : TtyState) : List UInt8 := Ring.contents ttyBuffer s.buffer s.head s.len

theorem length_contents : s.contents.length = s.len := Ring.length_contents

theorem contents_eq_nil : s.contents = [] ↔ s.len = 0 := by rw [← length_contents, List.length_eq_zero_iff]

theorem contents_push (h : s.len < ttyBuffer) : (s.push byte).contents = s.contents ++ [byte] := by
  rw [push, if_neg (by omega)]
  refine Ring.contents_overwrite h ?_
  have := Nat.mod_lt (s.head + s.len) (show 0 < ttyBuffer by decide)
  rw [List.length_singleton]
  omega

theorem contents_erase : s.erase.2.contents = s.contents.dropLast := by
  rw [erase]
  split
  · rename_i hlen
    rw [contents_eq_nil.2 hlen]
    rfl
  · rename_i hlen
    obtain ⟨n, hn⟩ := Nat.exists_eq_succ_of_ne_zero hlen
    rw [contents, contents, hn, Ring.contents, Ring.contents, List.range_succ, List.map_append, List.map_singleton,
      List.dropLast_concat]
    rfl

theorem contents_pop (h : 0 < s.len) : s.contents = s.buffer (s.head % ttyBuffer) ::
    { s with head := (s.head + 1) % ttyBuffer, len := s.len - 1 }.contents := by
  have hrest : { s with head := (s.head + 1) % ttyBuffer, len := s.len - 1 }.contents = s.contents.drop 1 :=
    Ring.contents_advance
  have hlen : 0 < s.contents.length := by rwa [length_contents]
  have hsplit : s.contents = s.contents[0] :: s.contents.drop 1 := (List.cons_getElem_drop_succ (h := hlen)).symm
  rw [hrest, hsplit, List.drop_succ_cons, List.drop_zero]
  simp [contents, Ring.contents]

structure Wf (s : TtyState) : Prop where
  head : s.head < ttyBuffer
  canonical : s.canonical = true

theorem popLoop_spec : ∀ fuel (s : TtyState) (output : MutableIoBuffer), s.Wf → s.len ≤ fuel →
    (popLoop fuel s output).2.filled = output.filled ++ firstLine output.remaining s.contents ∧
      (popLoop fuel s output).1.contents = s.contents.drop (firstLine output.remaining s.contents).length ∧
      (popLoop fuel s output).1.Wf := by
  intro fuel
  induction fuel with
  | zero =>
    intro s output hwf hle
    have hnil : s.contents = [] := contents_eq_nil.2 (by omega)
    have hline : firstLine output.remaining [] = [] := by cases output.remaining <;> rfl
    rw [popLoop, hnil, hline]
    exact ⟨(List.append_nil _).symm, List.drop_nil.symm, hwf⟩
  | succ fuel ih =>
    intro s output hwf hle
    rw [popLoop]
    split
    case isTrue hgo =>
      obtain ⟨hlen, hroom⟩ := hgo
      have hwf' : Wf { s with head := (s.head + 1) % ttyBuffer, len := s.len - 1 } :=
        ⟨Nat.mod_lt _ (by decide), hwf.canonical⟩
      have hpop := contents_pop hlen
      rw [Nat.mod_eq_of_lt hwf.head] at hpop
      obtain ⟨n, hn⟩ := Nat.exists_eq_succ_of_ne_zero hroom.ne'
      have hfilled : (output.push [s.buffer s.head]).filled = output.filled ++ [s.buffer s.head] := by
        rw [MutableIoBuffer.push, List.take_of_length_le]
        rw [List.length_singleton]
        omega
      have hremaining : (output.push [s.buffer s.head]).remaining = n := by
        rw [MutableIoBuffer.remaining, hfilled, List.length_append, List.length_singleton, ← Nat.sub_sub]
        exact Nat.pred_eq_of_eq_succ hn
      dsimp only
      rw [hn, hpop, firstLine]
      split
      case isTrue hend =>
        rw [if_pos hend.2]
        exact ⟨hfilled, rfl, hwf'⟩
      case isFalse hend =>
        have hbyte : s.buffer s.head ≠ newline := fun heq => hend ⟨hwf.canonical, heq⟩
        obtain ⟨hout, hcontents, hwf''⟩ := ih _ (output.push [s.buffer s.head]) hwf' (by dsimp only; omega)
        rw [hremaining] at hout hcontents
        rw [if_neg hbyte]
        exact ⟨by rw [hout, hfilled, List.append_assoc, List.singleton_append], hcontents, hwf''⟩
    case isFalse hstop =>
      have hline : firstLine output.remaining s.contents = [] := by
        rcases Nat.eq_zero_or_pos s.len with hlen | hlen
        · rw [contents_eq_nil.2 hlen]
          cases output.remaining <;> rfl
        · rw [Nat.eq_zero_of_not_pos fun hroom => hstop ⟨hlen, hroom⟩]
          rfl
      rw [hline]
      exact ⟨(List.append_nil _).symm, rfl, hwf⟩

theorem readConsole_spec (hwf : s.Wf) (size : Nat) (canBlock : Bool) :
    (s.readConsole size canBlock).1.bytes = firstLine size s.contents ∧
      (s.readConsole size canBlock).2.contents = s.contents.drop (firstLine size s.contents).length ∧
      (s.readConsole size canBlock).2.Wf := by
  rw [readConsole]
  split
  · exact popLoop_spec s.len s { size } hwf le_rfl
  · rename_i hlen
    have hline : firstLine size s.contents = [] := by
      rw [contents_eq_nil.2 (not_not.1 hlen)]
      cases size <;> rfl
    rw [hline]
    exact ⟨by cases canBlock <;> rfl, rfl, hwf⟩

end TtyState

/-! ### What the lines are -/

/-- The typed input as the one who types sees it: the lines completed so far, and the line being typed. -/
structure Typing where
  ready : List UInt8
  line : List UInt8

def Typing.edit (t : Typing) (byte : UInt8) : Typing :=
  if returnKey byte then ⟨t.ready ++ t.line ++ [newline], []⟩
  else if eraseKey byte then ⟨t.ready, t.line.dropLast⟩
  else if byte = interruptKey then t
  else ⟨t.ready, t.line ++ [byte]⟩

def cooked (typed : List UInt8) : Typing := typed.foldl Typing.edit ⟨[], []⟩

theorem cooked_concat (typed : List UInt8) (byte : UInt8) : cooked (typed ++ [byte]) = (cooked typed).edit byte := by
  rw [cooked, List.foldl_concat, ← cooked]

theorem firstLine_append_of_mem : ∀ (n : Nat) {rest : List UInt8} (line : List UInt8), newline ∈ rest →
    firstLine n (rest ++ line) = firstLine n rest
  | 0, _, _, _ => rfl
  | n + 1, byte :: rest, line, hmem => by
    rw [List.cons_append, firstLine, firstLine]
    split
    · rfl
    · rename_i hbyte
      rw [firstLine_append_of_mem n line ((List.mem_cons.1 hmem).resolve_left (Ne.symm hbyte))]

namespace Console

variable {c : Console} {e : TtyEvent} {start : TtySettings} {events : List TtyEvent}

/-- A key that is kept finds room in the buffer. -/
def Fits (c : Console) : TtyEvent → Prop
  | .input byte => ¬ eraseKey byte → byte ≠ interruptKey → c.state.len < ttyBuffer
  | .read _ _ => True

/-- A read that returns data finds a complete line and returns no more than one, and the erase key does not take the end of
a line away. -/
def Atomic (c : Console) : TtyEvent → Prop
  | .input byte => eraseKey byte → ∀ b, c.state.contents = (c.next (.input byte)).state.contents ++ [b] → b ≠ newline
  | .read size canBlock => (c.state.readConsole size canBlock).1.bytes ≠ [] →
      newline ∈ c.state.contents ∧ newline ∉ (c.state.readConsole size canBlock).1.bytes.dropLast

/-- A read does not come while there is nothing but an unfinished line, and the erase key is not pressed at the beginning of
a line while completed lines wait to be read. -/
def Proper (c : Console) : TtyEvent → Prop
  | .input byte => eraseKey byte → (cooked c.typed).line ≠ [] ∨ c.delivered = (cooked c.typed).ready
  | .read size _ => size = 0 ∨ c.delivered ≠ (cooked c.typed).ready ∨ (cooked c.typed).line = []

instance (c : Console) : (e : TtyEvent) → Decidable (c.Fits e)
  | .input byte => inferInstanceAs (Decidable (¬ eraseKey byte → byte ≠ interruptKey → c.state.len < ttyBuffer))
  | .read _ _ => isTrue trivial

instance (c : Console) : (e : TtyEvent) → Decidable (c.Proper e)
  | .input byte => inferInstanceAs (Decidable (eraseKey byte → (cooked c.typed).line ≠ [] ∨
    c.delivered = (cooked c.typed).ready))
  | .read size _ =>
    inferInstanceAs (Decidable (size = 0 ∨ c.delivered ≠ (cooked c.typed).ready ∨ (cooked c.typed).line = []))

structure Inv (c : Console) (rest : List UInt8) : Prop where
  wf : c.state.Wf
  ready : (cooked c.typed).ready = c.delivered ++ rest
  contents : c.state.contents = rest ++ (cooked c.typed).line
  line : newline ∉ (cooked c.typed).line
  ends : ∀ b ∈ rest.getLast?, b = newline

variable {rest : List UInt8}

theorem Inv.delivered_eq (h : Inv c rest) : c.delivered = (cooked c.typed).ready ↔ rest = [] := by
  rw [h.ready]
  exact List.self_eq_append_right

theorem Inv.mem_rest (h : Inv c rest) (hne : rest ≠ []) : newline ∈ rest := by
  have hlast := h.ends _ (List.getLast?_eq_some_getLast hne)
  exact hlast ▸ List.getLast_mem hne

theorem Inv.balance (h : Inv c rest) :
    c.delivered ++ c.state.contents = (cooked c.typed).ready ++ (cooked c.typed).line := by
  rw [h.contents, h.ready, List.append_assoc]

theorem contents_eraseKey {byte : UInt8} (h : eraseKey byte) :
    (c.next (.input byte)).state.contents = c.state.contents.dropLast := by
  have hreturn : ¬ returnKey byte := by rcases h with rfl | rfl <;> decide
  rw [next, TtyState.inputByte, if_neg hreturn, if_pos h, TtyState.contents_erase]

theorem Inv.atomic_iff (h : Inv c rest) : Atomic c e ↔ Proper c e := by
  cases e with
  | input byte =>
    refine forall_congr' fun hkey => ?_
    rw [contents_eraseKey hkey, h.delivered_eq, h.contents]
    constructor
    · intro hkept
      by_contra hnot
      obtain ⟨hline, hrest⟩ := not_or.1 hnot
      rw [not_not.1 hline, List.append_nil] at hkept
      have hlast := h.ends _ (List.getLast?_eq_some_getLast hrest)
      exact hkept _ (List.dropLast_append_getLast hrest).symm hlast
    · rintro hproper b hb rfl
      have hlast : (rest ++ (cooked c.typed).line).getLast? = some newline := by rw [hb, List.getLast?_concat]
      have hmem : newline ∈ (cooked c.typed).line := by
        rcases hproper with hline | hrest
        · rw [List.getLast?_append_of_ne_nil _ hline] at hlast
          exact List.mem_of_getLast? hlast
        · rw [hrest, List.nil_append] at hlast
          exact List.mem_of_getLast? hlast
      exact h.line hmem
  | read size canBlock =>
    obtain ⟨hbytes, -, -⟩ := TtyState.readConsole_spec h.wf size canBlock
    simp only [Atomic, Proper]
    rw [hbytes, h.contents, ne_eq c.delivered, h.delivered_eq]
    constructor
    · intro hatomic
      by_contra hnot
      obtain ⟨hsize, hrest, hline⟩ : size ≠ 0 ∧ rest = [] ∧ (cooked c.typed).line ≠ [] := by simpa using hnot
      obtain ⟨n, rfl⟩ := Nat.exists_eq_succ_of_ne_zero hsize
      obtain ⟨b, l, hl⟩ := List.exists_cons_of_ne_nil hline
      rw [hrest, List.nil_append] at hatomic
      refine h.line (hatomic ?_).1
      rw [hl, firstLine]
      split <;> simp
    · intro hproper hne
      refine ⟨List.mem_append_left _ (h.mem_rest ?_), firstLine_dropLast _ _⟩
      rintro rfl
      rcases hproper with rfl | hrest | hline
      · exact hne rfl
      · exact hrest rfl
      · rw [hline] at hne
        exact hne (by cases size <;> rfl)

theorem Inv.input (h : Inv c rest) {byte : UInt8} (hfits : Fits c (.input byte)) (hproper : Proper c (.input byte)) :
    ∃ rest', Inv (c.next (.input byte)) rest' := by
  have hedit := cooked_concat c.typed byte
  have hwf : ∀ b, (c.state.push b).Wf := by
    intro b
    rw [TtyState.push]
    split <;> exact ⟨h.wf.head, h.wf.canonical⟩
  by_cases hreturn : returnKey byte
  · have hlen : c.state.len < ttyBuffer :=
      hfits (by rcases hreturn with rfl | rfl <;> decide) (by rcases hreturn with rfl | rfl <;> decide)
    rw [Typing.edit, if_pos hreturn] at hedit
    have hends : ∀ b ∈ (rest ++ (cooked c.typed).line ++ [newline]).getLast?, b = newline := by
      intro b hb
      rw [List.getLast?_concat] at hb
      exact (Option.mem_some_iff.1 hb).symm
    refine ⟨rest ++ (cooked c.typed).line ++ [newline], ?_, ?_, ?_, ?_, hends⟩ <;>
      simp only [next, TtyState.inputByte, if_pos hreturn, hedit]
    · exact hwf _
    · rw [h.ready, List.append_assoc, List.append_assoc, List.append_assoc]
    · rw [TtyState.contents_push hlen, h.contents, List.append_nil]
    · exact List.not_mem_nil
  by_cases hkey : eraseKey byte
  · rw [Typing.edit, if_neg hreturn, if_pos hkey] at hedit
    have hcontents := contents_eraseKey (c := c) hkey
    have hdrop : (rest ++ (cooked c.typed).line).dropLast = rest ++ (cooked c.typed).line.dropLast := by
      rcases hproper hkey with hline | hdelivered
      · exact List.dropLast_append_of_ne_nil hline
      · rw [h.delivered_eq.1 hdelivered, List.nil_append, List.nil_append]
    refine ⟨rest, ?_, ?_, ?_, ?_, h.ends⟩
    · rw [next, TtyState.inputByte, if_neg hreturn, if_pos hkey, TtyState.erase]
      split <;> exact ⟨h.wf.head, h.wf.canonical⟩
    · simp only [next, hedit]
      exact h.ready
    · rw [hcontents, h.contents, hdrop]
      simp only [next, hedit]
    · simp only [next, hedit]
      exact fun hmem => h.line (List.mem_of_mem_dropLast hmem)
  by_cases hint : byte = interruptKey
  · rw [Typing.edit, if_neg hreturn, if_neg hkey, if_pos hint] at hedit
    refine ⟨rest, ?_, ?_, ?_, ?_, h.ends⟩ <;>
      simp only [next, TtyState.inputByte, if_neg hreturn, if_neg hkey,
        if_pos hint, hedit]
    exacts [h.wf, h.ready, h.contents, h.line]
  · have hlen : c.state.len < ttyBuffer := hfits hkey hint
    rw [Typing.edit, if_neg hreturn, if_neg hkey, if_neg hint] at hedit
    refine ⟨rest, ?_, ?_, ?_, ?_, h.ends⟩ <;>
      simp only [next, TtyState.inputByte, if_neg hreturn, if_neg hkey,
        if_neg hint, hedit]
    · exact hwf _
    · exact h.ready
    · rw [TtyState.contents_push hlen, h.contents, List.append_assoc]
    · rw [List.mem_append, List.mem_singleton, not_or]
      exact ⟨h.line, fun heq => hreturn (Or.inr heq.symm)⟩

/-- A proper read takes bytes of completed lines only. -/
theorem Inv.firstLine_front_rest (h : Inv c rest) {size : Nat} {canBlock : Bool}
    (hproper : Proper c (.read size canBlock)) : firstLine size c.state.contents <+: rest := by
  rw [h.contents]
  by_cases hrest : rest = []
  · have hline : size = 0 ∨ (cooked c.typed).line = [] := by
      rcases hproper with hsize | hdelivered | hline
      exacts [Or.inl hsize, absurd (h.delivered_eq.2 hrest) hdelivered, Or.inr hline]
    rcases hline with rfl | hline
    · exact List.nil_prefix
    · rw [hline, List.append_nil]
      exact firstLine_front _ _
  · rw [firstLine_append_of_mem _ _ (h.mem_rest hrest)]
    exact firstLine_front _ _

theorem Inv.read (h : Inv c rest) {size : Nat} {canBlock : Bool} (hproper : Proper c (.read size canBlock)) :
    ∃ rest', Inv (c.next (.read size canBlock)) rest' := by
  obtain ⟨hbytes, hcontents, hwf⟩ := TtyState.readConsole_spec h.wf size canBlock
  obtain ⟨rest', hsplit⟩ := h.firstLine_front_rest hproper
  refine ⟨rest', hwf, ?_, ?_, h.line, ?_⟩
  · simp only [next]
    rw [hbytes, List.append_assoc, hsplit, h.ready]
  · simp only [next]
    rw [hcontents]
    generalize firstLine size c.state.contents = l at hsplit
    rw [h.contents, ← hsplit, List.append_assoc, List.drop_left]
  · intro b hb
    refine h.ends b ?_
    rw [← hsplit, List.getLast?_append_of_ne_nil]
    · exact hb
    · rintro rfl
      cases hb

/-! ### Runs -/

def Throughout (start : TtySettings) (P : Console → TtyEvent → Prop) (events : List TtyEvent) : Prop :=
  ∀ before e rest, events = before ++ e :: rest → P (after start before) e

theorem throughout_concat {P : Console → TtyEvent → Prop} :
    Throughout start P (events ++ [e]) ↔ Throughout start P events ∧ P (after start events) e := by
  constructor
  · refine fun h => ⟨fun before e' rest heq => h before e' (rest ++ [e]) ?_, h events e [] rfl⟩
    rw [heq, List.append_assoc, List.cons_append]
  · rintro ⟨h, hlast⟩ before e' rest heq
    rcases List.eq_nil_or_concat rest with rfl | ⟨rest', b, rfl⟩
    · obtain ⟨rfl, hb⟩ := List.append_inj' heq rfl
      cases hb
      exact hlast
    · rw [List.concat_eq_append, ← List.cons_append, ← List.append_assoc] at heq
      exact h before e' rest' (List.append_inj' heq rfl).1

theorem throughout_iff_get {P : Console → TtyEvent → Prop} : Throughout start P events ↔
    ∀ i : Fin events.length, P (after start (events.take i)) (events.get i) := by
  constructor
  · refine fun h i => h _ _ (events.drop (i + 1)) ?_
    rw [List.get_eq_getElem, List.cons_getElem_drop_succ, List.take_append_drop]
  · rintro h before e rest rfl
    simpa using h ⟨before.length, by simp⟩

theorem after_concat : after start (events ++ [e]) = (after start events).next e := List.foldl_concat ..

theorem inv_after (hfits : Throughout start Fits events) (hproper : Throughout start Proper events) :
    ∃ rest, Inv (after start events) rest := by
  induction events using List.reverseRecOn with
  | nil => exact ⟨[], ⟨show 0 < ttyBuffer by decide, rfl⟩, rfl, rfl, List.not_mem_nil, by simp⟩
  | append_singleton events e ih =>
    obtain ⟨hfits, hfit⟩ := throughout_concat.1 hfits
    obtain ⟨hproper, hprop⟩ := throughout_concat.1 hproper
    obtain ⟨rest, hinv⟩ := ih hfits hproper
    rw [after_concat]
    cases e with
    | input byte => exact hinv.input hfit hprop
    | read size canBlock => exact hinv.read hprop

theorem throughout_atomic_iff (hfits : Throughout start Fits events) :
    Throughout start Atomic events ↔ Throughout start Proper events := by
  induction events using List.reverseRecOn with
  | nil => simp [Throughout]
  | append_singleton events e ih =>
    rw [throughout_concat, throughout_concat, ih (throughout_concat.1 hfits).1]
    refine and_congr_right fun hproper => ?_
    obtain ⟨rest, hinv⟩ := inv_after (throughout_concat.1 hfits).1 hproper
    exact hinv.atomic_iff

/-- On a run that does not overflow the ring, the reads and the erase key treat lines as wholes, and what was read is the
cooked input up to what waits, just if no read comes while there is only an unfinished line and the erase key is never
pressed at the beginning of a line with completed lines waiting. -/
theorem lines_atomic_iff (start : TtySettings) (events : List TtyEvent) (hfits : Throughout start Fits events) :
    (Throughout start Atomic events ∧ ∀ before rest, events = before ++ rest →
      (after start before).delivered ++ (after start before).state.contents =
        (cooked (after start before).typed).ready ++ (cooked (after start before).typed).line) ↔
      Throughout start Proper events := by
  rw [throughout_atomic_iff hfits, and_iff_left_iff_imp]
  rintro hproper before rest rfl
  have hbefore : ∀ {P : Console → TtyEvent → Prop}, Throughout start P (before ++ rest) → Throughout start P before := by
    intro P h before' e rest' heq
    refine h before' e (rest' ++ rest) ?_
    rw [heq, List.append_assoc, List.cons_append]
  obtain ⟨_, hinv⟩ := inv_after (hbefore hfits) (hbefore hproper)
  exact hinv.balance

/-- A line is typed, the next one begun and corrected, and the first one read. -/
theorem lines_atomic_iff_typed_ahead :
    Throughout {} Atomic [.input 97, .input 13, .input 98, .input 127, .input 99, .read 8 true] := by
  refine ((lines_atomic_iff {} [.input 97, .input 13, .input 98, .input 127, .input 99, .read 8 true] ?_).2 ?_).1
  · exact throughout_iff_get.2 (by decide +kernel)
  · exact throughout_iff_get.2 (by decide +kernel)

/-- A read returns an unfinished line, and the erase key takes the end of a completed one. -/
theorem unfinished_line_read :
    (Throughout {} Fits [.input 97, .read 8 true] ∧ ¬ Throughout {} Atomic [.input 97, .read 8 true]) ∧
      Throughout {} Fits [.input 97, .input 10, .input 8] ∧ ¬ Throughout {} Atomic [.input 97, .input 10, .input 8] := by
  have hread : Throughout {} Fits [.input 97, .read 8 true] := throughout_iff_get.2 (by decide +kernel)
  have herase : Throughout {} Fits [.input 97, .input 10, .input 8] := throughout_iff_get.2 (by decide +kernel)
  refine ⟨⟨hread, ?_⟩, herase, ?_⟩
  · rw [throughout_atomic_iff hread, throughout_iff_get]
    decide +kernel
  · rw [throughout_atomic_iff herase, throughout_iff_get]
    decide +kernel

end Console

end SudoOS
