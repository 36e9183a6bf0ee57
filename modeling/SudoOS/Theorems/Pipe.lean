import SudoOS.Kernel.Pipe

/-! A pipe is a stream: the bytes delivered and those still in the ring are the bytes accepted. -/

namespace SudoOS

/-! ### The ring -/

namespace PipeState

variable {s t : PipeState} {input : List UInt8} {fuel copied : Nat} {buf : MutableIoBuffer}

def contents (s : PipeState) : List UInt8 := Ring.contents pipeCapacity s.buffer s.head s.len

structure Wf (s : PipeState) : Prop where
  head : s.head < pipeCapacity
  len : s.len ≤ pipeCapacity

theorem new_wf : new.Wf := ⟨by decide, by decide⟩

theorem length_contents : s.contents.length = s.len := Ring.length_contents

structure Consumed (s : PipeState) (n : Nat) (t : PipeState) : Prop where
  wf : t.Wf
  len : t.len = s.len - n
  contents : t.contents = s.contents.drop n
  readers : t.readers = s.readers
  writers : t.writers = s.writers

structure Produced (s : PipeState) (bytes : List UInt8) (t : PipeState) : Prop where
  wf : t.Wf
  len : t.len = s.len + bytes.length
  contents : t.contents = s.contents ++ bytes
  readers : t.readers = s.readers
  writers : t.writers = s.writers

theorem readLoop_spec (hs : s.Wf) (hfuel : s.len ≤ fuel) :
    Consumed s (min s.len buf.remaining) (s.readLoop fuel buf).1 ∧
      (s.readLoop fuel buf).2.filled = buf.filled ++ s.contents.take (min s.len buf.remaining) := by
  induction fuel generalizing s buf with
  | zero =>
    have hlen : s.len = 0 := Nat.le_zero.1 hfuel
    rw [readLoop, hlen, Nat.zero_min]
    exact ⟨⟨hs, by rw [hlen], List.drop_zero.symm, rfl, rfl⟩, by simp⟩
  | succ fuel ih =>
    rw [readLoop]
    split
    · rename_i hgo
      dsimp only
      generalize hchunk : min (min s.len (pipeCapacity - s.head)) buf.remaining = chunk
      have hhead := hs.head
      have hlen := hs.len
      have hpos : 1 ≤ chunk := by omega
      have hle : chunk ≤ s.len := by omega
      have hslice : Ring.slice s.buffer s.head chunk = s.contents.take chunk := Ring.slice_eq_take hle (by omega)
      have hnext : ({ s with head := (s.head + chunk) % pipeCapacity, len := s.len - chunk } : PipeState).contents =
        s.contents.drop chunk := Ring.contents_advance
      have hfilled : (buf.push (s.contents.take chunk)).filled = buf.filled ++ s.contents.take chunk := by
        rw [MutableIoBuffer.push, List.take_of_length_le]
        rw [List.length_take, length_contents]
        omega
      have hremaining : (buf.push (s.contents.take chunk)).remaining = buf.remaining - chunk := by
        rw [MutableIoBuffer.remaining, hfilled, List.length_append, List.length_take, length_contents, Nat.min_eq_left hle,
          ← Nat.sub_sub]
        rfl
      obtain ⟨hconsumed, hrest⟩ := @ih { s with head := (s.head + chunk) % pipeCapacity, len := s.len - chunk }
        (buf.push (s.contents.take chunk)) ⟨Nat.mod_lt _ (Nat.zero_lt_of_lt hhead), Nat.le_trans (Nat.sub_le ..) hlen⟩
        (by simp only; omega)
      have hmin : min s.len buf.remaining = chunk + min (s.len - chunk) (buf.remaining - chunk) := by omega
      simp only [hremaining, hfilled] at hconsumed hrest
      rw [hslice, hmin]
      refine ⟨⟨hconsumed.wf, ?_, ?_, hconsumed.readers, hconsumed.writers⟩, ?_⟩
      · rw [hconsumed.len, Nat.sub_sub]
      · rw [hconsumed.contents, hnext, List.drop_drop]
      · rw [hrest, hnext, List.append_assoc, List.take_add]
    · rename_i hstop
      have hmin : min s.len buf.remaining = 0 := by omega
      rw [hmin, List.take_zero, List.append_nil]
      exact ⟨⟨hs, (Nat.sub_zero _).symm, List.drop_zero.symm, rfl, rfl⟩, rfl⟩

theorem writeLoop_spec (hs : s.Wf) (hfuel : pipeCapacity - s.len ≤ fuel) :
    let n := min (pipeCapacity - s.len) (input.length - copied)
    Produced s ((input.drop copied).take n) (s.writeLoop input fuel copied).1 ∧
      (s.writeLoop input fuel copied).2 = copied + n := by
  induction fuel generalizing s copied with
  | zero =>
    have hn : min (pipeCapacity - s.len) (input.length - copied) = 0 := by omega
    simp only [hn, List.take_zero, writeLoop]
    exact ⟨⟨hs, rfl, (List.append_nil _).symm, rfl, rfl⟩, rfl⟩
  | succ fuel ih =>
    rw [writeLoop]
    split
    · rename_i hgo
      dsimp only
      generalize htail : (s.head + s.len) % pipeCapacity = tail
      generalize hwritable : (if s.head ≤ tail then pipeCapacity - tail else s.head - tail) = writable
      generalize hchunk : min (min writable (pipeCapacity - s.len)) (input.length - copied) = chunk
      have hhead := hs.head
      have hlen := hs.len
      have htaillt : tail < pipeCapacity := htail ▸ Nat.mod_lt _ (Nat.zero_lt_of_lt hhead)
      -- the piece ends before the end of the array, and before the head
      have hwrite : 1 ≤ writable ∧ tail + writable ≤ pipeCapacity := by
        split at hwritable <;> omega
      have hdata : ((input.drop copied).take chunk).length = chunk := by
        rw [List.length_take, List.length_drop]
        omega
      have hnext : Ring.contents pipeCapacity (Ring.overwrite s.buffer tail ((input.drop copied).take chunk)) s.head
          (s.len + chunk) = s.contents ++ (input.drop copied).take chunk := by
        have hend : (s.head + s.len) % pipeCapacity + ((input.drop copied).take chunk).length ≤ pipeCapacity := by
          rw [hdata, htail]
          omega
        have hroom : s.len + ((input.drop copied).take chunk).length ≤ pipeCapacity := by omega
        have hoverwrite := @Ring.contents_overwrite _ _ _ _ s.buffer _ hroom hend
        rwa [hdata, htail] at hoverwrite
      obtain ⟨hproduced, hcopied⟩ := @ih { s with
        buffer := Ring.overwrite s.buffer tail ((input.drop copied).take chunk), len := s.len + chunk } (copied + chunk)
        ⟨hhead, by simp only; omega⟩ (by simp only; omega)
      have hn : min (pipeCapacity - s.len) (input.length - copied) =
        chunk + min (pipeCapacity - (s.len + chunk)) (input.length - (copied + chunk)) := by omega
      have hbytes : (input.drop copied).take (min (pipeCapacity - s.len) (input.length - copied)) =
          (input.drop copied).take chunk ++
            (input.drop (copied + chunk)).take (min (pipeCapacity - (s.len + chunk)) (input.length - (copied +
              chunk))) := by
        rw [hn, List.take_add, List.drop_drop]
      refine ⟨⟨hproduced.wf, ?_, ?_, hproduced.readers, hproduced.writers⟩, ?_⟩
      · rw [hproduced.len, hbytes, List.length_append, hdata, Nat.add_assoc]
      · rw [hproduced.contents, hbytes, ← List.append_assoc, contents, hnext]
      · rw [hcopied, hn, Nat.add_assoc]
    · rename_i hstop
      have hn : min (pipeCapacity - s.len) (input.length - copied) = 0 := by omega
      simp only [hn, List.take_zero]
      exact ⟨⟨hs, rfl, (List.append_nil _).symm, rfl, rfl⟩, rfl⟩

end PipeState


namespace Pipe

abbrev State := Threads.State Shared Nat Phase

variable {s : State} {p p' : Shared} {k k' : Phase} {input : Input} {bytes : List UInt8} {copied : Nat} {places : List Nat}

/-! ### The stream -/

structure Stream (p : Shared) : Prop where
  wf : p.state.Wf
  accepted : p.accepted = p.delivered ++ p.state.contents

structure Grows (p p' : Shared) : Prop where
  stream : Stream p'
  accepted : p.accepted <+: p'.accepted
  readers : p'.state.readers ≠ 0 → p.state.readers ≠ 0

theorem Grows.refl (h : Stream p) : Grows p p := ⟨h, List.prefix_rfl, id⟩

theorem read_grows (h : Stream p) (size : Nat) (mayBlock : Bool) : Grows p (read p size mayBlock).1 := by
  unfold read
  split_ifs
  · exact .refl h
  · exact .refl h
  · exact .refl h
  · obtain ⟨hconsumed, hfilled⟩ := @PipeState.readLoop_spec p.state _ { size } h.wf le_rfl
    refine ⟨⟨hconsumed.wf, ?_⟩, List.prefix_rfl, fun hreaders => hconsumed.readers ▸ hreaders⟩
    dsimp only
    rw [hconsumed.contents, hfilled, List.nil_append, List.append_assoc, List.take_append_drop, h.accepted]

theorem write_room (h : Stream p) {mayBlock : Bool} (hcopied : copied < bytes.length) (hreaders : p.state.readers ≠ 0)
    (hroom : p.state.len ≠ pipeCapacity) :
    let n := min (pipeCapacity - p.state.len) (bytes.length - copied)
    Grows p (write p bytes mayBlock copied places).1 ∧
      (write p bytes mayBlock copied places).1.accepted = p.accepted ++ (bytes.drop copied).take n ∧
      (write p bytes mayBlock copied places).2 =
        .calling (.write bytes mayBlock (copied + n) (places ++ List.range' p.accepted.length n)) := by
  intro n
  obtain ⟨hproduced, hn⟩ := @PipeState.writeLoop_spec p.state bytes _ copied h.wf le_rfl
  have hwrite : write p bytes mayBlock copied places =
      ({ p with state := (p.state.writeLoop bytes (pipeCapacity - p.state.len) copied).1,
                accepted := p.accepted ++ (bytes.drop copied).take n },
        .calling (.write bytes mayBlock (copied + n) (places ++ List.range' p.accepted.length n))) := by
    unfold write
    dsimp only
    rw [if_neg (by omega), if_neg hreaders, if_neg hroom, hn, Nat.add_sub_cancel_left]
  rw [hwrite]
  refine ⟨⟨⟨hproduced.wf, ?_⟩, List.prefix_append _ _, fun h => hproduced.readers ▸ h⟩, rfl, rfl⟩
  dsimp only
  rw [hproduced.contents, h.accepted, List.append_assoc]

theorem write_grows (h : Stream p) (mayBlock : Bool) : Grows p (write p bytes mayBlock copied places).1 := by
  by_cases hturn : copied < bytes.length ∧ p.state.readers ≠ 0 ∧ p.state.len ≠ pipeCapacity
  · exact (write_room h hturn.1 hturn.2.1 hturn.2.2).1
  · have hsame : (write p bytes mayBlock copied places).1 = p := by
      unfold write
      dsimp only
      split_ifs <;> first | rfl | (exact absurd ⟨by omega, by assumption, by assumption⟩ hturn)
    rw [hsame]
    exact .refl h

theorem step_grows (h : Stream p) (hstep : step p k input = some (p', k')) : Grows p p' := by
  unfold step at hstep
  split at hstep
  · cases hstep
    exact .refl h
  · cases hstep
    exact .refl h
  · next side =>
    cases hstep
    cases side with
    | reader =>
      exact ⟨⟨⟨h.wf.head, h.wf.len⟩, h.accepted⟩, List.prefix_rfl, fun hreaders hzero => hreaders (by
        simp [closeSide, hzero])⟩
    | writer => exact ⟨⟨⟨h.wf.head, h.wf.len⟩, h.accepted⟩, List.prefix_rfl, id⟩
  · next side =>
    cases hstep
    cases side with
    | reader => exact ⟨⟨⟨h.wf.head, h.wf.len⟩, h.accepted⟩, List.prefix_rfl, fun hreaders => absurd rfl hreaders⟩
    | writer => exact ⟨⟨⟨h.wf.head, h.wf.len⟩, h.accepted⟩, List.prefix_rfl, id⟩
  · next c =>
    have hcall : (call p c).1 = p' := congrArg Prod.fst (Option.some.inj hstep)
    rw [← hcall]
    cases c with
    | read size mayBlock => exact read_grows h size mayBlock
    | write bytes mayBlock copied places => exact write_grows h mayBlock
  · cases hstep
    exact .refl h
  · cases hstep
    exact .refl h
  · cases hstep
    exact .refl h
  · cases hstep

/-! ### Small writes -/

/-- The bytes stand in the stream in one piece, at the places given. -/
def Placed (accepted bytes : List UInt8) (places : List Nat) : Prop :=
  ∃ start, places = List.range' start bytes.length ∧ bytes <+: accepted.drop start

theorem Placed.grow {accepted later : List UInt8} (h : Placed accepted bytes places) (hle : accepted <+: later) :
    Placed later bytes places := by
  obtain ⟨start, hplaces, hbytes⟩ := h
  exact ⟨start, hplaces, hbytes.trans (List.IsPrefix.drop hle start)⟩

/-- A small write that finds the pipe not full finds room for all that is left of it. -/
def roomy (p : Shared) : Phase → Bool
  | .calling (.write bytes true copied _) =>
    decide (bytes.length ≤ pipeCapacity → p.state.len ≠ pipeCapacity → bytes.length - copied ≤ pipeCapacity - p.state.len)
  | _ => true

/-- The threads, as long as small writes find room. -/
def roomyThreads : Threads Shared Nat Phase where
  init := threads.init
  start := threads.start
  act i p k p' k' := roomy p k = true ∧ threads.act i p k p' k'

def Whole (p : Shared) : Call → Prop
  | .write bytes true copied places => bytes.length ≤ pipeCapacity →
    copied = 0 ∧ places = [] ∨ copied = bytes.length ∧ Placed p.accepted bytes places
  | _ => True

def Atomic (p : Shared) : Call → Result → Prop
  | .write bytes true _ places, result => bytes.length ≤ pipeCapacity → p.state.readers ≠ 0 → result ≠ .error .eintr →
    result = .written bytes.length ∧ Placed p.accepted bytes places
  | _, _ => True

def Local (p : Shared) : Phase → Prop
  | .idle => True
  | .calling c => Whole p c
  | .waiting c => Whole p c
  | .done c result => Atomic p c result

theorem Whole.grow {c : Call} (h : Whole p c) (hgrows : Grows p p') : Whole p' c := by
  cases c with
  | read size mayBlock => trivial
  | write bytes mayBlock copied places =>
    cases mayBlock with
    | false => trivial
    | true => exact fun hsmall => (h hsmall).imp_right fun hw => ⟨hw.1, hw.2.grow hgrows.accepted⟩

theorem Local.grow (h : Local p k) (hgrows : Grows p p') : Local p' k := by
  cases k with
  | idle => trivial
  | calling c | waiting c => exact Whole.grow h hgrows
  | done c result =>
    cases c with
    | read size mayBlock => trivial
    | write bytes mayBlock copied places =>
      cases mayBlock with
      | false => trivial
      | true =>
        intro hsmall hreaders hexit
        obtain ⟨hresult, hplaced⟩ := h hsmall (hgrows.readers hreaders) hexit
        exact ⟨hresult, hplaced.grow hgrows.accepted⟩

theorem write_local (h : Stream p) (hwhole : Whole p (.write bytes true copied places))
    (hroomy : roomy p (.calling (.write bytes true copied places)) = true) :
    Local (write p bytes true copied places).1 (write p bytes true copied places).2 := by
  by_cases hsmall : bytes.length ≤ pipeCapacity
  swap
  · generalize hq : (write p bytes true copied places).2 = k
    unfold write at hq
    dsimp only at hq
    split_ifs at hq <;> cases hq <;> exact fun hle => absurd hle hsmall
  rcases hwhole hsmall with ⟨rfl, rfl⟩ | ⟨rfl, hplaced⟩
  · by_cases hnil : bytes.length = 0
    · have hwrite : write p bytes true 0 [] = (p, .done (.write bytes true 0 []) (.written 0)) := by
        unfold write
        exact if_pos (by omega)
      rw [hwrite]
      refine fun _ _ _ => ⟨by rw [hnil], 0, by rw [hnil]; rfl, ?_⟩
      rw [List.eq_nil_of_length_eq_zero hnil]
      exact List.nil_prefix
    by_cases hreaders : p.state.readers = 0
    · generalize hq : write p bytes true 0 [] = q
      unfold write at hq
      dsimp only at hq
      rw [if_neg (by omega), if_pos hreaders] at hq
      cases hq
      exact fun _ h => absurd hreaders h
    by_cases hfull : p.state.len = pipeCapacity
    · generalize hq : write p bytes true 0 [] = q
      unfold write at hq
      dsimp only at hq
      rw [if_neg (by omega), if_neg hreaders, if_pos hfull, if_neg (by simp), if_pos rfl] at hq
      cases hq
      exact fun _ => .inl ⟨rfl, rfl⟩
    · -- there is room, so that this turn puts all bytes
      obtain ⟨-, haccepted, hphase⟩ := @write_room p bytes 0 [] h true (by omega) hreaders hfull
      have hroom := of_decide_eq_true hroomy hsmall hfull
      rw [Nat.sub_zero] at hroom haccepted hphase
      rw [Nat.min_eq_right hroom] at haccepted hphase
      rw [hphase]
      have hpiece : (write p bytes true 0 []).1.accepted.drop p.accepted.length = bytes := by
        rw [haccepted, List.drop_zero, List.take_length, List.drop_left]
      exact fun _ => .inr ⟨Nat.zero_add _, p.accepted.length, List.nil_append _, [], by rw [hpiece, List.append_nil]⟩
  · have hwrite : write p bytes true bytes.length places =
        (p, .done (.write bytes true bytes.length places) (.written bytes.length)) := by
      unfold write
      exact if_pos le_rfl
    rw [hwrite]
    exact fun _ _ _ => ⟨rfl, hplaced⟩

theorem call_local {c : Call} (h : Stream p) (hwhole : Whole p c) (hroomy : roomy p (.calling c) = true) :
    Local (call p c).1 (call p c).2 := by
  cases c with
  | read size mayBlock =>
    show Local (read p size mayBlock).1 (read p size mayBlock).2
    unfold read
    split_ifs <;> trivial
  | write bytes mayBlock copied places =>
    cases mayBlock with
    | true => exact write_local h hwhole hroomy
    | false =>
      show Local (write p bytes false copied places).1 (write p bytes false copied places).2
      unfold write
      dsimp only
      split_ifs <;> trivial

theorem step_local (h : Stream p) (hlocal : Local p k) (hroomy : roomy p k = true)
    (hstep : step p k input = some (p', k')) : Local p' k' := by
  unfold step at hstep
  split at hstep
  · cases hstep
    trivial
  · next bytes mayBlock =>
    cases hstep
    cases mayBlock with
    | false => trivial
    | true => exact fun _ => .inl ⟨rfl, rfl⟩
  · cases hstep
    trivial
  · cases hstep
    trivial
  · next c =>
    have hcall : call p c = (p', k') := Option.some.inj hstep
    have hdone := call_local h hlocal hroomy
    rwa [hcall] at hdone
  · cases hstep
    exact hlocal
  · next c =>
    cases hstep
    cases c with
    | read size mayBlock => trivial
    | write bytes mayBlock copied places =>
      cases mayBlock with
      | false => trivial
      | true => exact fun _ _ hexit => absurd rfl hexit
  · cases hstep
    trivial
  · cases hstep

theorem roomy_stable : roomyThreads.Stable Stream fun _ p k => Local p k where
  init := by
    rintro p rfl
    exact ⟨PipeState.new_wf, rfl⟩
  start := by
    rintro p i k - rfl
    trivial
  shared := by
    rintro i p k p' k' h - ⟨-, input, hstep⟩
    exact (step_grows h hstep).stream
  own := by
    rintro i p k p' k' h hlocal ⟨hroomy, input, hstep⟩
    exact step_local h hlocal hroomy hstep
  other := by
    rintro i j p k p' k' l - h - hlocal ⟨-, input, hstep⟩
    exact hlocal.grow (step_grows h hstep)

/-- As long as small writes find room for all their bytes whenever the ring is not full, each of them puts its bytes into
the stream in one piece and returns their number. -/
theorem small_writes_atomic (hs : roomyThreads.system.Reachable s) :
    s.shared.accepted = s.shared.delivered ++ s.shared.state.contents ∧
      ∀ i bytes copied places result, s.own i = .done (.write bytes true copied places) result →
      bytes.length ≤ pipeCapacity →
        s.shared.state.readers ≠ 0 → result ≠ .error .eintr →
        result = .written bytes.length ∧ Placed s.shared.accepted bytes places := by
  obtain ⟨hstream, hlocal⟩ := roomy_stable.reachable hs
  refine ⟨hstream.accepted, fun i bytes copied places result hown => ?_⟩
  have hi := hlocal i
  rwa [hown] at hi

/-! ### Two runs -/

def initial : State := ⟨⟨.new, [], []⟩, fun _ => .idle⟩

theorem initial_init : threads.system.init initial := ⟨rfl, fun _ => rfl⟩

/-- Two writers, of which one has come to its end while the other has taken its place behind it. -/
theorem small_writes_atomic_two : ∃ s : State, roomyThreads.system.Reachable s ∧
    s.shared.accepted = s.shared.delivered ++ s.shared.state.contents ∧
    s.own 0 = .done (.write [1, 2] true 2 [0, 1]) (.written 2) ∧ Placed s.shared.accepted [1, 2] [0, 1] ∧
    s.own 1 = .done (.write [3] true 1 [2]) (.written 1) ∧ Placed s.shared.accepted [3] [2] := by
  have hrun : (Threads.replay (Threads.guarded (fun p _ k _ => roomy p k) fun p _ k a => step p k a) initial
      [(0, .startWrite [1, 2] true), (1, .startWrite [3] true), (0, .advance), (1, .advance), (0, .advance),
        (1, .advance)]).any (fun s => decide (s.shared.state.readers = 1 ∧
          s.own 0 = .done (.write [1, 2] true 2 [0, 1]) (.written 2) ∧
          s.own 1 = .done (.write [3] true 1 [2]) (.written 1))) = true := by decide +kernel
  obtain ⟨s, hreach, hreaders, hfirst, hsecond⟩ := Threads.reachable_of_replay (p := roomyThreads) (.init initial_init)
    (fun hstep => ⟨(Threads.guarded_eq_some hstep).1, _, (Threads.guarded_eq_some hstep).2⟩) hrun
  obtain ⟨hstream, hatomic⟩ := small_writes_atomic hreach
  have hroom : s.shared.state.readers ≠ 0 := by rw [hreaders]; decide
  exact ⟨s, hreach, hstream, hfirst, (hatomic 0 _ _ _ _ hfirst (by decide) hroom (by decide)).2, hsecond,
    (hatomic 1 _ _ _ _ hsecond (by decide) hroom (by decide)).2⟩

def splitScript : List (Nat × Input) :=
  [(0, .startWrite (List.replicate 4095 0) true), (0, .advance), (1, .startWrite [1, 2] true), (1, .advance), (1, .advance)]

theorem small_write_split : ∃ s : State, threads.system.Reachable s ∧ s.shared.state.readers = 1 ∧
    s.own 1 = .done (.write [1, 2] true 1 [4095]) (.written 1) := by
  have hrun : (Threads.replay (fun p _ k a => step p k a) initial splitScript).any (fun s =>
      decide (s.shared.state.readers = 1 ∧ s.own 1 = .done (.write [1, 2] true 1 [4095]) (.written 1))) = true := by
    decide +kernel
  exact Threads.reachable_of_replay (p := threads) (.init initial_init) (fun hstep => ⟨_, hstep⟩) hrun

end Pipe

end SudoOS
