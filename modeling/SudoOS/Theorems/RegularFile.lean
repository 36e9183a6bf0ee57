import SudoOS.Kernel.RegularFile
import SudoOS.Lib.Splice

/-! A regular file as an array of bytes that grows and is filled with zeros, with a position for each open. -/

namespace SudoOS

namespace Vfs

/-! ### The array -/

/-- A file as bytes, with a position for every descriptor. -/
structure ByteFile where
  content : List UInt8
  position : Nat → Nat

namespace ByteFile

def overwrite (content : List UInt8) (start : Nat) (input : List UInt8) : List UInt8 :=
  (List.range (max content.length (start + input.length))).map fun i =>
    if start ≤ i ∧ i < start + input.length then input.getD (i - start) 0 else content.getD i 0

def cut (content : List UInt8) (length : Nat) : List UInt8 := (List.range length).map fun i => content.getD i 0

def target (base : Nat) (offset : Int) : Except Errno Nat :=
  if i64Limit ≤ base ∨ base + offset < -i64Limit ∨ i64Limit ≤ base + offset then .error .eoverflow
  else if base + offset < 0 then .error .einval
  else .ok (base + offset).toNat

variable (flags : Nat → OpenMode) (readOnly : Bool)

def truncate (f : ByteFile) (length : UInt64) : Except FileErrno Reply × ByteFile :=
  if readOnly then (.error (.errno .erofs), f) else (.ok .done, { f with content := cut f.content length.toNat })

def call (f : ByteFile) (fd : Nat) : FileOp → Except FileErrno Reply × ByteFile
  | .read length =>
    if (flags fd).readable then
      let data := (f.content.drop (f.position fd)).take length
      (.ok (.bytes data), { f with position := Function.update f.position fd (f.position fd + data.length) })
    else (.error .ebadf, f)
  | .write input =>
    if (flags fd).writable then
      if readOnly then (.error (.errno .erofs), f)
      else if input = [] then (.ok (.count 0), f)
      else
        let start := if (flags fd).append then f.content.length else f.position fd
        if usizeLimit ≤ start + input.length then (.error (.errno .eoverflow), f)
        else
          (.ok (.count input.length),
            { content := overwrite f.content start input
              position := Function.update f.position fd (start + input.length) })
    else (.error .ebadf, f)
  | .seek offset whence =>
    match target (whence.base (f.position fd) f.content.length) offset with
    | .error e => (.error (.errno e), f)
    | .ok position => (.ok (.count position), { f with position := Function.update f.position fd position })
  | .truncate length => if (flags fd).writable then f.truncate readOnly length else (.error .ebadf, f)
  | .truncateNode length => f.truncate readOnly length

end ByteFile

open ByteFile

theorem length_resize (data : List UInt8) (length : Nat) : (resize data length).length = length := by
  rw [resize]
  split
  · rw [List.length_append, List.length_replicate]
    omega
  · rw [List.length_take]
    omega

theorem getD_resize {data : List UInt8} {length i : Nat} (hi : i < length) : (resize data length).getD i 0 =
    data.getD i 0 := by
  rw [resize]
  split
  · by_cases hd : i < data.length
    · rw [List.getD_append _ _ _ _ hd]
    · rw [List.getD_append_right _ _ _ _ (by omega), List.getD_eq_default data _ (by omega),
        List.getD_replicate _ (by omega)]
  · rw [List.getD_eq_getElem?_getD, List.getD_eq_getElem?_getD, List.getElem?_take_of_lt hi]

theorem getD_map_range {f : Nat → UInt8} {n i : Nat} (hi : i < n) : ((List.range n).map f).getD i 0 = f i := by
  rw [List.getD_eq_getElem _ _ (by simpa using hi), List.getElem_map, List.getElem_range]

theorem resize_eq_cut (data : List UInt8) (length : Nat) : resize data length = cut data length := by
  refine Splice.ext_getD 0 (by rw [length_resize, cut, List.length_map, List.length_range]) fun i hi => ?_
  rw [length_resize] at hi
  rw [getD_resize hi, cut, getD_map_range hi]

theorem copy_eq_overwrite (data input : List UInt8) (start : Nat) :
    (fun grown => grown.take start ++ input ++ grown.drop (start + input.length))
      (if data.length < start + input.length then resize data (start + input.length) else data) =
      overwrite data start input := by
  generalize hgrown : (if data.length < start + input.length then resize data (start + input.length) else data) = grown
  have hlen : grown.length = max data.length (start + input.length) := by
    rw [← hgrown]
    split
    · rw [length_resize]
      omega
    · omega
  have hget : ∀ i < grown.length, grown.getD i 0 = data.getD i 0 := by
    intro i hi
    rw [← hgrown]
    split
    · exact getD_resize (by omega)
    · rfl
  have hsplice := Splice.length_splice (show start + input.length ≤ grown.length by omega)
  refine Splice.ext_getD 0 (by rw [hsplice, hlen, overwrite, List.length_map, List.length_range]) fun i hi => ?_
  rw [hsplice] at hi
  rw [Splice.getD_splice (by omega), overwrite, getD_map_range (by omega)]
  split
  · rfl
  · exact hget i hi

/-! ### Calls -/

namespace FileState

def content (bytes : List UInt8) : FileState → List UInt8
  | .regular data => data
  | .ext4Regular _ (some data) => data
  | .ext4Regular _ none => bytes

def Sized (bytes : List UInt8) (s : FileState) : Prop := ∀ size, s = .ext4Regular size none → size = bytes.length

variable {bytes : List UInt8} {s : FileState} {r : Resources}

theorem length_eq (h : s.Sized bytes) : s.length = (s.content bytes).length := by
  cases s with
  | regular => rfl
  | ext4Regular size overlay =>
    cases overlay with
    | none => exact h size rfl
    | some => rfl

@[simp] theorem content_put {data : List UInt8} : (s.put data).content bytes = data := by cases s <;> rfl

theorem sized_put {data : List UInt8} : (s.put data).Sized bytes := by
  cases s <;> intro size h <;> cases h

end FileState

def Resources.Lacking (r : Resources) : Prop := r.copy = false ∨ r.grow = false ∨ r.io ≠ none

namespace FileState

variable {bytes : List UInt8} {s : FileState} {r : Resources}

/-- Copying a file up gives its contents, or fails for lack of something. -/
theorem regularOverlayMut_cases (h : s.Sized bytes) :
    s.regularOverlayMut bytes r = .ok (s.content bytes) ∨ r.Lacking ∧ ∃ e, s.regularOverlayMut bytes r = .error e := by
  cases s with
  | regular => exact .inl rfl
  | ext4Regular size overlay =>
    cases overlay with
    | some => exact .inl rfl
    | none =>
      obtain rfl := h size rfl
      rw [regularOverlayMut]
      split
      case isTrue hcopy => exact .inr ⟨.inl hcopy, _, rfl⟩
      case isFalse =>
        cases hio : r.io with
        | some e => exact .inr ⟨.inr (.inr (by rw [hio]; simp)), e, rfl⟩
        | none => simp [readInodeAt, content]

/-- A read gives the bytes behind the position and passes them, or fails for lack of something. -/
theorem read_cases (h : s.Sized bytes) (hlen : (s.content bytes).length < usizeLimit) (position length : Nat) :
    s.read bytes r position length = (.ok (((s.content bytes).drop position).take length),
      position + (((s.content bytes).drop position).take length).length) ∨
    r.Lacking ∧ ∃ e, s.read bytes r position length = (.error e, position) := by
  -- contents in memory, which two of the states have
  have hmemory : ∀ data : List UInt8, data.length < usizeLimit → (if data.length ≤ position then (Except.ok [], position)
      else if position + min (data.length - position) length < usizeLimit then
        (.ok ((data.drop position).take (min (data.length - position) length)),
          position + min (data.length - position) length)
      else (.error Errno.eoverflow, position)) =
      (.ok ((data.drop position).take length), position + ((data.drop position).take length).length) := by
    intro data hdata
    split
    case isTrue hend => simp [List.drop_eq_nil_of_le hend]
    case isFalse =>
      rw [if_pos (by omega), List.length_take, List.length_drop, ← List.length_drop, Nat.min_comm, ← List.take_eq_take_min]
  cases s with
  | regular data => exact .inl (hmemory data hlen)
  | ext4Regular size overlay =>
    cases overlay with
    | some data => exact .inl (hmemory data hlen)
    | none =>
      obtain rfl := h size rfl
      cases hio : r.io with
      | some e =>
        rw [read]
        split
        case isTrue hend => exact .inl (by simp [content, List.drop_eq_nil_of_le hend])
        case isFalse => exact .inr ⟨.inr (.inr (by rw [hio]; simp)), e, by rw [hio]; rfl⟩
      | none =>
        left
        refine Eq.trans ?_ (hmemory bytes hlen)
        rw [read]
        split
        · rfl
        · rw [hio, readInodeAt]
          dsimp only
          rw [List.length_take, List.length_drop]
          rw [show min (min (bytes.length - position) length) (bytes.length - position) =
            min (bytes.length - position) length by
            omega]

/-- A write overwrites the contents, or fails for lack of something or because the end is no word; then only an open for
appending has moved. -/
theorem write_cases (h : s.Sized bytes) (append : Bool) (position : Nat) (input : List UInt8) :
    let start := if append then (s.content bytes).length else position
    (r.Lacking ∧ ∃ e state, s.write bytes r append position input = (.error e, state, position) ∧ state.Sized bytes ∧
      state.content bytes = s.content bytes) ∨
    (usizeLimit ≤ start + input.length ∧ s.write bytes r append position input = (.error .eoverflow,
      s.put (s.content bytes), start)) ∨
    (r.grow = false ∧ s.write bytes r append position input = (.error .enomem, s.put (s.content bytes), start)) ∨
    (start + input.length < usizeLimit ∧ s.write bytes r append position input =
      (.ok input.length, s.put (overwrite (s.content bytes) start input), start + input.length)) := by
  intro start
  rcases regularOverlayMut_cases (r := r) h with hdata | ⟨hlack, e, he⟩
  · right
    have hwrite : s.write bytes r append position input =
        if usizeLimit ≤ start + input.length then (.error .eoverflow, s.put (s.content bytes), start)
        else if (s.content bytes).length < start + input.length ∧ r.grow = false then
          (.error .enomem, s.put (s.content bytes), start)
        else (.ok input.length, s.put (overwrite (s.content bytes) start input), start + input.length) := by
      rw [write, hdata, ← copy_eq_overwrite]
    clear_value start
    rw [hwrite]
    split
    case isTrue hlimit => exact .inl ⟨hlimit, rfl⟩
    case isFalse hlimit =>
      split
      case isTrue hgrow => exact .inr (.inl ⟨hgrow.2, rfl⟩)
      case isFalse => exact .inr (.inr ⟨Nat.lt_of_not_le hlimit, rfl⟩)
  · exact .inl ⟨hlack, e, s, by rw [write, he], h, rfl⟩

theorem truncateNode_cases (h : s.Sized bytes) (length : Nat) :
    (∃ state, s.truncateNode bytes r length = (.ok (), state) ∧ state.Sized bytes ∧
      state.content bytes = cut (s.content bytes) length) ∨
    r.Lacking ∧ ∃ e state, s.truncateNode bytes r length = (.error e, state) ∧ state.Sized bytes ∧
      state.content bytes = s.content bytes := by
  unfold truncateNode
  split
  · exact .inl ⟨_, rfl, (by intro size h; cases h), rfl⟩
  · rcases regularOverlayMut_cases (r := r) h with hdata | ⟨hlack, e, he⟩
    · rw [hdata]
      dsimp only
      split
      case isTrue hgrow => exact .inr ⟨.inr (.inl hgrow.2), _, _, rfl, sized_put, content_put⟩
      case isFalse => exact .inl ⟨_, rfl, sized_put, by rw [content_put, resize_eq_cut]⟩
    · rw [he]
      exact .inr ⟨hlack, e, _, rfl, h, rfl⟩

end FileState

/-! ### Runs -/

namespace SharedFile

variable {s : SharedFile} {fd : Nat} {r : Resources}

def abstract (s : SharedFile) : ByteFile := ⟨s.state.content s.bytes, s.position⟩

structure Inv (s : SharedFile) : Prop where
  sized : s.state.Sized s.bytes
  length_lt : (s.state.content s.bytes).length < usizeLimit

def Regular (s : SharedFile) (fd : Nat) (r : Resources) : FileOp → Prop
  | .write input =>
    if (s.flags fd).append then s.position fd = (s.state.content s.bytes).length ∨
      input ≠ [] ∧ r.grow = true ∧ (s.state.content s.bytes).length + input.length < usizeLimit
    else input ≠ [] ∨ s.position fd ≤ (s.state.content s.bytes).length
  | _ => True

structure Meets (s : SharedFile) (fd : Nat) (r : Resources) (op : FileOp) : Prop where
  inv : Inv (s.call fd r op).2
  flags : (s.call fd r op).2.flags = s.flags
  readOnly : (s.call fd r op).2.readOnly = s.readOnly
  outcome : ((s.call fd r op).1, (s.call fd r op).2.abstract) = s.abstract.call s.flags s.readOnly fd op ∨
    r.Lacking ∧ (∃ e, (s.call fd r op).1 = .error e) ∧ (s.call fd r op).2.abstract = s.abstract

theorem meets_of {op : FileOp} {result : Except FileErrno Reply} {t : SharedFile} (hcall : s.call fd r op = (result, t))
    (hinv : t.Inv) (hflags : t.flags = s.flags) (hreadOnly : t.readOnly = s.readOnly)
    (hout : (result, t.abstract) = s.abstract.call s.flags s.readOnly fd op ∨
      r.Lacking ∧ (∃ e, result = .error e) ∧ t.abstract = s.abstract) : s.Meets fd r op := by
  refine ⟨?_, ?_, ?_, ?_⟩
  all_goals rw [hcall]
  exacts [hinv, hflags, hreadOnly, hout]

theorem move_self : s.move fd (s.position fd) = s := by
  rw [move, Function.update_eq_self]

theorem Inv.read (h : s.Inv) (length : Nat) : s.Meets fd r (.read length) := by
  by_cases hflag : (s.flags fd).readable = true
  · have hcall : s.call fd r (.read length) = (reply .bytes (s.state.read s.bytes r (s.position fd) length).1,
        s.move fd (s.state.read s.bytes r (s.position fd) length).2) := by rw [call, if_pos hflag]
    refine meets_of hcall ⟨h.sized, h.length_lt⟩ rfl rfl ?_
    rcases FileState.read_cases (r := r) h.sized h.length_lt (s.position fd) length with hread | ⟨hlack, e, hread⟩
    · left
      rw [hread, ByteFile.call, if_pos hflag]
      rfl
    · right
      rw [hread, move_self]
      exact ⟨hlack, ⟨_, rfl⟩, rfl⟩
  · refine meets_of (by rw [call, if_neg hflag]) h rfl rfl (.inl ?_)
    rw [ByteFile.call, if_neg hflag]

/-- The outcome of a write that leaves the array as it was. -/
theorem abstract_kept {state : FileState} {position : Nat} (hcontent : state.content s.bytes = s.state.content s.bytes)
    (hposition : position = s.position fd) : ({ s with state }.move fd position).abstract = s.abstract := by
  rw [hposition, abstract, abstract]
  exact congr (congrArg ByteFile.mk hcontent) (Function.update_eq_self ..)

theorem overwrite_nil {content : List UInt8} {start : Nat} (h : start ≤ content.length) : overwrite content start [] =
    content := by
  refine Splice.ext_getD 0 (by simp [overwrite, h]) fun i hi => ?_
  rw [overwrite, getD_map_range (by simpa [overwrite] using hi), if_neg (by simp)]

theorem length_overwrite (content : List UInt8) (start : Nat) (input : List UInt8) :
    (overwrite content start input).length = max content.length (start + input.length) := by
  rw [overwrite, List.length_map, List.length_range]

theorem Regular.start {input : List UInt8} {start : Nat} (h : s.Regular fd r (.write input))
    (hstart : (if (s.flags fd).append then (s.state.content s.bytes).length else s.position fd) = start) :
    (start = s.position fd ∨ r.grow = true ∧ start + input.length < usizeLimit) ∧
      (input = [] → start = s.position fd ∧ start ≤ (s.state.content s.bytes).length) := by
  unfold Regular at h
  subst hstart
  by_cases happend : (s.flags fd).append = true
  · simp only [happend, if_true] at h ⊢
    rcases h with h | ⟨hne, hgrow, hlimit⟩
    · exact ⟨.inl h.symm, fun _ => ⟨h.symm, le_rfl⟩⟩
    · exact ⟨.inr ⟨hgrow, hlimit⟩, fun hnil => absurd hnil hne⟩
  · simp only [happend] at h ⊢
    exact ⟨.inl rfl, fun hnil => ⟨rfl, h.resolve_left fun hne => hne hnil⟩⟩

theorem Inv.write (h : s.Inv) (input : List UInt8) (hregular : s.Regular fd r (.write input)) :
    s.Meets fd r (.write input) := by
  by_cases hflag : (s.flags fd).writable = true
  case neg =>
    refine meets_of (by rw [call, if_neg hflag]) h rfl rfl (.inl ?_)
    rw [ByteFile.call, if_neg hflag]
  by_cases hro : s.readOnly = true
  case pos =>
    refine meets_of (by rw [call, if_pos hflag, if_pos hro]) h rfl rfl (.inl ?_)
    rw [ByteFile.call, if_pos hflag, if_pos hro]
  have hcall : ∀ w, s.state.write s.bytes r (s.flags fd).append (s.position fd) input = w →
      s.call fd r (.write input) = (reply .count w.1, { s with state := w.2.1 }.move fd w.2.2) := by
    rintro _ rfl
    rw [call, if_pos hflag, if_neg hro]
  have hlen := h.length_lt
  have hcases := FileState.write_cases (r := r) h.sized (s.flags fd).append (s.position fd) input
  generalize hstart : (if (s.flags fd).append then (s.state.content s.bytes).length else s.position fd) = start at hcases
  obtain ⟨hmoved, hnil⟩ := hregular.start hstart
  have hspec : input ≠ [] → s.abstract.call s.flags s.readOnly fd (.write input) =
      if usizeLimit ≤ start + input.length then (.error (.errno .eoverflow), s.abstract)
      else (.ok (.count input.length), ⟨overwrite (s.state.content s.bytes) start input,
        Function.update s.position fd (start + input.length)⟩) := by
    intro hne
    rw [ByteFile.call, if_pos hflag, if_neg hro, if_neg hne, ← hstart]
    rfl
  have hput : Inv ({ s with state := s.state.put (s.state.content s.bytes) }.move fd start) :=
    ⟨FileState.sized_put, by simpa [move] using hlen⟩
  obtain ⟨hlack, e, state, hwrite, hsized, hcontent⟩ | ⟨hlimit, hwrite⟩ | ⟨hgrow, hwrite⟩ | ⟨hlimit, hwrite⟩ := hcases
  · exact meets_of (hcall _ hwrite) ⟨hsized, by simpa [move, hcontent] using hlen⟩ rfl rfl
      (.inr ⟨hlack, ⟨_, rfl⟩, abstract_kept hcontent rfl⟩)
  · refine meets_of (hcall _ hwrite) hput rfl rfl (.inl ?_)
    have hne : input ≠ [] := by
      intro hempty
      have := (hnil hempty).2
      rw [hempty, List.length_nil] at hlimit
      omega
    rw [hspec hne, if_pos hlimit]
    exact Prod.ext rfl (abstract_kept FileState.content_put (hmoved.resolve_right fun h => by omega))
  · exact meets_of (hcall _ hwrite) hput rfl rfl (.inr ⟨.inr (.inl hgrow), ⟨_, rfl⟩,
      abstract_kept FileState.content_put (hmoved.resolve_right fun h => by rw [hgrow] at h; cases h.1)⟩)
  · refine meets_of (hcall _ hwrite) ⟨FileState.sized_put, ?_⟩ rfl rfl (.inl ?_)
    · simp only [move, FileState.content_put, length_overwrite]
      omega
    by_cases hempty : input = []
    · obtain ⟨hpos, hle⟩ := hnil hempty
      subst hempty
      rw [ByteFile.call, if_pos hflag, if_neg hro, if_pos rfl]
      refine Prod.ext rfl (abstract_kept ?_ hpos)
      rw [FileState.content_put, overwrite_nil hle]
    · rw [hspec hempty, if_neg (by omega)]
      refine Prod.ext rfl (congrArg (ByteFile.mk · _) ?_)
      exact FileState.content_put

theorem Inv.seek (h : s.Inv) (offset : Int) (whence : SeekWhence) : s.Meets fd r (.seek offset whence) := by
  have htarget : s.state.seek (s.position fd) offset whence =
      ByteFile.target (whence.base (s.position fd) (s.state.content s.bytes).length) offset := by
    unfold FileState.seek ByteFile.target
    rw [FileState.length_eq h.sized]
    generalize whence.base (s.position fd) (s.state.content s.bytes).length = base
    by_cases hbase : i64Limit ≤ base
    · rw [if_pos hbase, if_pos (.inl hbase)]
    by_cases hrange : base + offset < -i64Limit ∨ i64Limit ≤ base + offset
    · rw [if_neg hbase, if_pos hrange, if_pos (.inr hrange)]
    · rw [if_neg hbase, if_neg hrange, if_neg (not_or.2 ⟨hbase, hrange⟩)]
  cases hseek : s.state.seek (s.position fd) offset whence with
  | error e =>
    refine meets_of (by rw [call, hseek]) h rfl rfl (.inl ?_)
    rw [htarget] at hseek
    simp only [ByteFile.call, abstract, hseek]
  | ok position =>
    refine meets_of (t := s.move fd position) (by rw [call, hseek]) ⟨h.sized, h.length_lt⟩ rfl rfl (.inl ?_)
    rw [htarget] at hseek
    simp only [ByteFile.call, abstract, hseek]
    rfl

theorem Inv.truncateNode (h : s.Inv) (op : FileOp) (length : UInt64) (hcall : s.call fd r op = s.truncateNode r length)
    (hspec : s.abstract.call s.flags s.readOnly fd op = s.abstract.truncate s.readOnly length) : s.Meets fd r op := by
  by_cases hro : s.readOnly = true
  · refine meets_of (by rw [hcall, SharedFile.truncateNode, if_pos hro]) h rfl rfl (.inl ?_)
    rw [hspec, ByteFile.truncate, if_pos hro]
  · have hrun : ∀ w, s.state.truncateNode s.bytes r length.toNat = w →
        s.call fd r op = (reply (fun _ => .done) w.1, { s with state := w.2 }) := by
      rintro _ rfl
      rw [hcall, SharedFile.truncateNode, if_neg hro]
    obtain ⟨state, hstate, hsized, hcontent⟩ | ⟨hlack, e, state, hstate, hsized, hcontent⟩ :=
      FileState.truncateNode_cases (r := r) h.sized length.toNat
    · refine meets_of (hrun _ hstate) ⟨hsized, ?_⟩ rfl rfl (.inl ?_)
      · rw [hcontent, cut, List.length_map, List.length_range]
        exact length.toNat_lt
      · rw [hspec, ByteFile.truncate, if_neg hro]
        exact Prod.ext rfl (congrArg (ByteFile.mk · _) hcontent)
    · refine meets_of (hrun _ hstate) ⟨hsized, by rw [hcontent]; exact h.length_lt⟩ rfl rfl (.inr ⟨hlack, ⟨_, rfl⟩, ?_⟩)
      exact congrArg (ByteFile.mk · _) hcontent

theorem Inv.call (h : s.Inv) (op : FileOp) (hregular : s.Regular fd r op) : s.Meets fd r op := by
  cases op with
  | read length => exact h.read length
  | write input => exact h.write input hregular
  | seek offset whence => exact h.seek offset whence
  | truncate length =>
    by_cases hflag : (s.flags fd).writable = true
    · exact h.truncateNode _ length (by rw [SharedFile.call, if_pos hflag]) (by rw [ByteFile.call, if_pos hflag])
    · refine meets_of (by rw [SharedFile.call, if_neg hflag]) h rfl rfl (.inl ?_)
      rw [ByteFile.call, if_neg hflag]
  | truncateNode length => exact h.truncateNode _ length rfl rfl

end SharedFile

structure FileCall where
  fd : Nat
  resources : Resources
  op : FileOp

namespace SharedFile

def run (s : SharedFile) : List FileCall → List (Except FileErrno Reply) × SharedFile
  | [] => ([], s)
  | c :: rest =>
    let next := s.call c.fd c.resources c.op
    (next.1 :: (run next.2 rest).1, (run next.2 rest).2)

/-- All the writes of a run are such as the array knows. -/
def RegularRun (s : SharedFile) : List FileCall → Prop
  | [] => True
  | c :: rest => s.Regular c.fd c.resources c.op ∧ RegularRun (s.call c.fd c.resources c.op).2 rest

end SharedFile

/-- The array under calls with the given replies: each replies and changes it as it should, or fails for lack of something
and changes nothing. -/
inductive ByteFile.Run (flags : Nat → OpenMode) (readOnly : Bool) :
    ByteFile → List FileCall → List (Except FileErrno Reply) → ByteFile → Prop
  | nil {f : ByteFile} : Run flags readOnly f [] [] f
  | call {f g : ByteFile} {c : FileCall} {calls : List FileCall} {replies : List (Except FileErrno Reply)} :
    Run flags readOnly (f.call flags readOnly c.fd c.op).2 calls replies g →
    Run flags readOnly f (c :: calls) ((f.call flags readOnly c.fd c.op).1 :: replies) g
  | lacking {f g : ByteFile} {c : FileCall} {e : FileErrno} {calls : List FileCall}
    {replies : List (Except FileErrno Reply)} :
    c.resources.Lacking → Run flags readOnly f calls replies g → Run flags readOnly f (c :: calls) (.error e :: replies) g

namespace SharedFile

/-- Any calls through any opens of a file of any contents, in memory or on a volume, get the replies of the array and leave
its contents and positions, if no write of no bytes stands beyond the end or at an open for appending away from it, and no
append from elsewhere fails. -/
theorem file_as_byte_array (calls : List FileCall) (s : SharedFile) (h : s.Inv) (hregular : s.RegularRun calls) :
    ByteFile.Run s.flags s.readOnly s.abstract calls (s.run calls).1 (s.run calls).2.abstract := by
  induction calls generalizing s with
  | nil => exact .nil
  | cons c calls ih =>
    obtain ⟨hcall, hrest⟩ := hregular
    have hmeets := h.call c.op hcall
    have hnext := ih _ hmeets.inv hrest
    rw [hmeets.flags, hmeets.readOnly] at hnext
    rw [run]
    rcases hmeets.outcome with hout | ⟨hlack, ⟨e, he⟩, hsame⟩
    · have hreply := congrArg Prod.fst hout
      have hfile := congrArg Prod.snd hout
      dsimp only at hreply hfile
      rw [hfile] at hnext
      rw [hreply]
      exact .call hnext
    · rw [hsame] at hnext
      rw [he]
      exact .lacking hlack hnext

def allGranted : Resources := { copy := true, grow := true, io := none }

def fresh (bytes : List UInt8) (state : FileState) : SharedFile where
  bytes
  readOnly := false
  flags _ := { readable := true, writable := true, append := false }
  state
  position _ := 0

theorem file_as_byte_array_copied :
    ByteFile.Run (fresh [1, 2, 3] (.ext4Regular 3 none)).flags false (fresh [1, 2, 3] (.ext4Regular 3 none)).abstract
      [⟨0, allGranted, .write [7]⟩, ⟨1, allGranted, .read 2⟩] [.ok (.count 1), .ok (.bytes [7, 2])]
      ((fresh [1, 2, 3] (.ext4Regular 3 none)).run [⟨0, allGranted, .write [7]⟩, ⟨1, allGranted, .read 2⟩]).2.abstract :=
  file_as_byte_array _ (fresh [1, 2, 3] (.ext4Regular 3 none)) ⟨by intro size h; cases h; rfl, by decide⟩
    ⟨.inl (by decide), trivial, trivial⟩

/-- A write of no bytes beyond the end of an empty file makes it longer. -/
theorem empty_write_grows :
    ((fresh [] (.regular [])).run [⟨0, allGranted, .seek 5 .set⟩, ⟨0, allGranted, .write []⟩]).1 = [.ok (.count 5),
      .ok (.count 0)] ∧
    ((fresh [] (.regular [])).run [⟨0, allGranted, .seek 5 .set⟩, ⟨0, allGranted, .write []⟩]).2.state =
      .regular [0, 0, 0, 0, 0] := by
  decide +kernel

end SharedFile

end Vfs

end SudoOS
