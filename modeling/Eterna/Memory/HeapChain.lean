import Eterna.Memory.Heap

/-!
# The segment chain of the heap

`Heap.Chain h segs` says that the headers in memory form the chain of the segments `segs` that fills
the heap.  Every operation of the heap edits a few headers in the middle of the chain; `Writes` says
which, and `Chain.edit` turns correct headers there into the chain of the new segments.
-/

namespace Eterna

open ByteMemory SegmentChain

/-- The header after an assignment to one of its fields. -/
def HeaderField.assign (f : HeaderField) (r : Header) (value : ℕ) : Header :=
  match f with
  | .last => { r with last := value }
  | .next => { r with next := value }
  | .length => { r with length := value }
  | .free => { r with free := decide (value ≠ 0) }

namespace Heap

/-- The header at an address. -/
def header (h : Heap) (a : ℕ) : Header := ⟨h.last a, h.next a, h.length a, h.isFree a⟩

/-- Outside the headers at the addresses `A` the two memories agree. -/
def Writes (A : List ℕ) (h h' : Heap) : Prop :=
  ∀ x, (∀ a ∈ A, x < a ∨ a + headerSize ≤ x) → h'.mem x = h.mem x

/-- The two heaps lie at the same place, on the same machine. -/
structure SameArena (h h' : Heap) : Prop where
  machine : h'.machine = h.machine
  start : h'.sHeapStart = h.sHeapStart
  stop : h'.sHeapEnd = h.sHeapEnd

/-- The segments `segs` fill the heap, and their headers are in memory. -/
structure Chain (h : Heap) (segs : List Segment) : Prop where
  linked : Linked h.header 0 segs 0
  tiles : Tiles headerSize h.sHeapStart segs h.sHeapEnd
  ne_nil : segs ≠ []
  last_eq : h.sLastHeader = lastAddr 0 segs
  start_pos : 0 < h.sHeapStart
  end_lt : h.sHeapEnd < 2 ^ 64
  /-- No payload is shorter than `split` makes it. -/
  long : ∀ s ∈ segs, 8 ≤ s.length

variable {h h' h'' : Heap} {f : HeaderField} {a b v : ℕ} {A B : List ℕ}

theorem SameArena.refl (h : Heap) : SameArena h h := ⟨rfl, rfl, rfl⟩

theorem SameArena.trans (h₁ : SameArena h h') (h₂ : SameArena h' h'') : SameArena h h'' :=
  ⟨h₂.machine.trans h₁.machine, h₂.start.trans h₁.start, h₂.stop.trans h₁.stop⟩

theorem SameArena.ite {c : Prop} [Decidable c] (h₁ : SameArena h h') (h₂ : SameArena h h'') :
    SameArena h (if c then h' else h'') := by
  split
  · exact h₁
  · exact h₂

theorem SameArena.setField (h : Heap) (f : HeaderField) (a v : ℕ) :
    SameArena h (h.setField f a v) := ⟨rfl, rfl, rfl⟩

/-! ### Single assignments -/

theorem header_last (h : Heap) (a : ℕ) : (h.header a).last = h.last a := rfl

theorem header_next (h : Heap) (a : ℕ) : (h.header a).next = h.next a := rfl

theorem header_length (h : Heap) (a : ℕ) : (h.header a).length = h.length a := rfl

theorem header_free (h : Heap) (a : ℕ) : (h.header a).free = h.isFree a := rfl

@[simp] theorem setField_sLastHeader : (h.setField f a v).sLastHeader = h.sLastHeader := rfl

@[simp] theorem setLastHeader_field (g : HeaderField) :
    (h.setLastHeader a).field g b = h.field g b := rfl

@[simp] theorem setLastHeader_header : (h.setLastHeader a).header b = h.header b := rfl

theorem field_setField (g : HeaderField) (h : Heap) (f : HeaderField) (a v : ℕ) :
    (h.setField f a v).field g a = if g = f then v % 256 ^ f.bytes else h.field g a := by
  split
  next hgf =>
    subst hgf
    exact load_store_self
  next hgf =>
    refine load_store_of_apart ?_
    cases f <;> cases g <;> simp [HeaderField.offset, HeaderField.bytes] at hgf ⊢

theorem header_setField_self (hv : v < 256 ^ f.bytes) :
    (h.setField f a v).header a = f.assign (h.header a) v := by
  have hmod : v % 256 ^ f.bytes = v := Nat.mod_eq_of_lt hv
  cases f <;>
    simp only [header, last, next, length, isFree, field_setField, hmod, HeaderField.assign,
      reduceCtorEq, if_true, if_false]

theorem field_setField_of_apart {g : HeaderField}
    (hab : a + headerSize ≤ b ∨ b + headerSize ≤ a) :
    (h.setField f a v).field g b = h.field g b := by
  refine load_store_of_apart ?_
  cases f <;> cases g <;>
    simp only [headerSize, HeaderField.offset, HeaderField.bytes] at hab ⊢ <;> omega

namespace Writes

theorem refl (A : List ℕ) (h : Heap) : Writes A h h := fun _ _ => rfl

theorem trans (h₁ : Writes A h h') (h₂ : Writes A h' h'') : Writes A h h'' :=
  fun x hx => (h₂ x hx).trans (h₁ x hx)

theorem mono (hw : Writes A h h') (hAB : ∀ a ∈ A, a ∈ B) : Writes B h h' :=
  fun x hx => hw x fun a ha => hx a (hAB a ha)

theorem setField (h : Heap) (f : HeaderField) (v : ℕ) (ha : a ∈ A) :
    Writes A h (h.setField f a v) := fun x hx => by
  refine store_of_notMem ?_
  have hout := hx a ha
  cases f <;> simp only [headerSize, HeaderField.offset, HeaderField.bytes] at hout ⊢ <;> omega

theorem header_eq (hw : Writes A h h')
    (hb : ∀ a ∈ A, a + headerSize ≤ b ∨ b + headerSize ≤ a) : h'.header b = h.header b := by
  have hfield : ∀ f, h'.field f b = h.field f b := fun f => by
    refine load_congr fun i hi => hw _ fun a ha => ?_
    have hapart := hb a ha
    cases f <;> simp only [headerSize, HeaderField.offset, HeaderField.bytes] at hapart hi ⊢ <;>
      omega
  simp only [header, last, next, length, isFree, hfield]

end Writes

theorem header_setField_of_apart (hab : a + headerSize ≤ b ∨ b + headerSize ≤ a) :
    (h.setField f a v).header b = h.header b :=
  (Writes.setField h f v (.head [])).header_eq fun x hx => by
    rw [List.mem_singleton.mp hx]
    exact hab

/-! ### Reading and editing a chain -/

namespace Chain

variable {segs pre mid mid' post : List Segment} {s t : Segment}

theorem header_eq (hc : h.Chain (pre ++ s :: post)) :
    h.header s.addr = ⟨lastAddr 0 pre, headAddr post 0, s.length, s.free⟩ := hc.linked.view_eq

theorem next_eq (hc : h.Chain (pre ++ s :: post)) : h.next s.addr = headAddr post 0 := by
  rw [← header_next, hc.header_eq]

theorem prev_eq (hc : h.Chain (pre ++ s :: post)) : h.last s.addr = lastAddr 0 pre := by
  rw [← header_last, hc.header_eq]

theorem length_eq (hc : h.Chain (pre ++ s :: post)) : h.length s.addr = s.length := by
  rw [← header_length, hc.header_eq]

theorem isFree_eq (hc : h.Chain (pre ++ s :: post)) : h.isFree s.addr = s.free := by
  rw [← header_free, hc.header_eq]

theorem addr_pos (hc : h.Chain segs) (hs : s ∈ segs) : 0 < s.addr :=
  Nat.lt_of_lt_of_le hc.start_pos (hc.tiles.mem_le hs).1

theorem stop_lt (hc : h.Chain segs) (hs : s ∈ segs) : s.addr + headerSize + s.length < 2 ^ 64 :=
  Nat.lt_of_le_of_lt (hc.tiles.mem_le hs).2 hc.end_lt

theorem stop_le (hc : h.Chain (pre ++ s :: post)) (ht : t ∈ post) :
    s.addr + headerSize + s.length ≤ t.addr :=
  (hc.tiles.around.2.mem_le ht).1

/-- An edit from `mid` on does not write the headers in front of it. -/
theorem header_eq_before (hc : h.Chain (pre ++ mid ++ post))
    (hw : Writes (A ++ (post.take 1).map Segment.addr) h h') (hne : mid ≠ [])
    (hA : ∀ a ∈ A, headAddr mid 0 ≤ a) (ht : t ∈ pre) : h'.header t.addr = h.header t.addr := by
  have hbefore : t.addr + headerSize + t.length ≤ headAddr mid 0 := by
    obtain ⟨m, hpm, -⟩ := Tiles.append_iff.mp hc.tiles
    obtain ⟨m', hp, hm⟩ := Tiles.append_iff.mp hpm
    rw [headAddr_eq_of_ne_nil hne 0 m, hm.headAddr_eq]
    exact (hp.mem_le ht).2
  refine hw.header_eq fun a ha => .inr ?_
  obtain ha | ha := List.mem_append.mp ha
  · have hlo := hA a ha
    omega
  · -- the header behind the edit is behind `t` all the more
    obtain ⟨u, hu, rfl⟩ := List.mem_map.mp ha
    obtain ⟨pre₁, pre₂, rfl⟩ := List.append_of_mem ht
    have hu' : u ∈ pre₂ ++ mid ++ post := List.mem_append_right _ (List.mem_of_mem_take hu)
    have hafter := stop_le (by simpa using hc : h.Chain (pre₁ ++ t :: (pre₂ ++ mid ++ post))) hu'
    omega

/-- An edit in front of `post` leaves it linked, with the `last` link of its first header
patched. -/
theorem linked_after {q : ℕ} (hc : h.Chain (pre ++ post))
    (hw : Writes (A ++ (post.take 1).map Segment.addr) h h')
    (hA : ∀ a ∈ A, ∀ u ∈ post, a + headerSize ≤ u.addr)
    (hpost : ∀ u rest, post = u :: rest →
      h'.header u.addr = { h.header u.addr with last := q }) : Linked h'.header q post 0 := by
  cases post with
  | nil => trivial
  | cons u rest =>
    refine (Linked.append_iff.mp hc.linked).2.relast (hpost u rest rfl) fun t ht => ?_
    refine hw.header_eq fun a ha => .inl ?_
    obtain ha | ha := List.mem_append.mp ha
    · exact hA a ha t (.tail _ ht)
    · obtain rfl : a = u.addr := by simpa using ha
      have hafter := hc.stop_le ht
      omega

/-- **Editing a chain.**  The segments `mid` are replaced by `mid'`: the headers written are those
at the addresses `A` in this part of the heap and the one behind it, whose `last` link is
patched. -/
theorem edit (hc : h.Chain (pre ++ mid ++ post))
    (hw : Writes (A ++ (post.take 1).map Segment.addr) h h') (hne : mid ≠ []) (hne' : mid' ≠ [])
    (hhead : headAddr mid' 0 = headAddr mid 0)
    (hA : ∀ a ∈ A, headAddr mid 0 ≤ a ∧ ∀ u ∈ post, a + headerSize ≤ u.addr)
    (hmid : Linked h'.header (lastAddr 0 pre) mid' (headAddr post 0))
    (hpost : ∀ u rest, post = u :: rest →
      h'.header u.addr = { h.header u.addr with last := lastAddr 0 mid' })
    (hlast : h'.sLastHeader = lastAddr (lastAddr 0 mid') post)
    (hstart : h'.sHeapStart = h.sHeapStart)
    (htiles : Tiles headerSize h.sHeapStart (pre ++ mid' ++ post) h'.sHeapEnd)
    (hend : h'.sHeapEnd < 2 ^ 64) (hlong : ∀ s ∈ mid', 8 ≤ s.length) :
    h'.Chain (pre ++ mid' ++ post) := by
  refine ⟨?_, hstart ▸ htiles, by simp [hne'], ?_, hstart ▸ hc.start_pos, hend, ?_⟩
  · refine hc.linked.splice ?_ (fun t => hc.header_eq_before hw hne fun a ha => (hA a ha).1) hmid ?_
    · rw [headAddr_eq_of_ne_nil hne' _ 0, headAddr_eq_of_ne_nil hne _ 0, hhead]
    · rw [lastAddr_eq_of_ne_nil hne' _ 0]
      exact hc.linked_after hw (fun a ha => (hA a ha).2) hpost
  · rw [hlast, lastAddr_append, lastAddr_append, lastAddr_eq_of_ne_nil hne' (lastAddr 0 pre) 0]
  · intro s hs
    obtain hs | hs := List.mem_append.mp hs
    · obtain hs | hs := List.mem_append.mp hs
      · exact hc.long s (by simp [hs])
      · exact hlong s hs
    · exact hc.long s (by simp [hs])

theorem lastHeader_eq (hc : h.Chain (pre ++ s :: post)) : h.sLastHeader = lastAddr s.addr post := by
  rw [hc.last_eq, lastAddr_append, lastAddr_cons]

theorem shift (hc : h.Chain (pre ++ s :: post)) : h.Chain (pre ++ [s] ++ post) := by
  simpa using hc

theorem header_succ (hc : h.Chain (pre ++ s :: t :: post)) :
    h.header t.addr = ⟨s.addr, headAddr post 0, t.length, t.free⟩ := by
  rw [hc.shift.header_eq, lastAddr_append, lastAddr_cons, lastAddr_nil]

theorem last_succ (hc : h.Chain (pre ++ s :: t :: post)) : h.last t.addr = s.addr := by
  rw [← header_last, hc.header_succ]

end Chain

/-! ### Marking a segment -/

theorem setFree_writes (h : Heap) (a : ℕ) (b : Bool) : Writes [a] h (h.setFree a b) :=
  Writes.setField h _ _ (.head _)

theorem header_setLast_self (hv : v < 2 ^ 64) :
    (h.setLast a v).header a = { h.header a with last := v } := header_setField_self hv

theorem header_setNext_self (hv : v < 2 ^ 64) :
    (h.setNext a v).header a = { h.header a with next := v } := header_setField_self hv

theorem header_setLength_self (hv : v < 2 ^ 64) :
    (h.setLength a v).header a = { h.header a with length := v } := header_setField_self hv

theorem header_setFree_self (h : Heap) (a : ℕ) (b : Bool) :
    (h.setFree a b).header a = { h.header a with free := b } := by
  cases b <;> exact header_setField_self (by decide)

section Operations

variable {pre post : List Segment} {s t u : Segment}

theorem Chain.setFree (hc : h.Chain (pre ++ s :: post)) (b : Bool) :
    (h.setFree s.addr b).Chain (pre ++ { s with free := b } :: post) := by
  have hw := setFree_writes h s.addr b
  suffices hedit : (h.setFree s.addr b).Chain (pre ++ [{ s with free := b }] ++ post) by
    simpa using hedit
  refine hc.shift.edit (A := [s.addr]) (hw.mono (by simp)) (by simp) (by simp) rfl
    ?_ ?_ ?_ hc.lastHeader_eq rfl ?_ hc.end_lt ?_
  · intro a ha
    obtain rfl := List.mem_singleton.mp ha
    exact ⟨Nat.le_refl _, fun u hu => by have hafter := hc.stop_le hu; omega⟩
  · rw [linked_cons, header_setFree_self, hc.header_eq]
    exact ⟨rfl, trivial⟩
  · rintro u rest rfl
    have hafter := hc.stop_le (.head _)
    rw [hw.header_eq (by simp; omega), hc.header_succ]
    rfl
  · exact hc.shift.tiles.splice fun x y hxy => hxy
  · simpa using hc.long s (by simp)

/-! ### Combining -/

/-- `combine_forward` on the list: the segment in front of `post` takes in the first one of `post`
if that is free. -/
def absorb (s : Segment) : List Segment → List Segment
  | [] => [s]
  | t :: post =>
    if t.free then ⟨s.addr, s.length + headerSize + t.length, s.free⟩ :: post else s :: t :: post

theorem combineForward_of_next_eq_zero {a : ℕ} (hnext : h.next a = 0) :
    h.combineForward a = h := by
  rw [combineForward, if_pos hnext]

theorem combineForward_of_used {a : ℕ} (hused : h.isFree (h.next a) = false) :
    h.combineForward a = h := by
  rw [combineForward, if_pos hused, ite_self]

theorem combined_length (hc : h.Chain (pre ++ s :: t :: post)) :
    add64 (add64 s.length t.length) headerSize = s.length + headerSize + t.length ∧
      s.length + headerSize + t.length < 2 ^ 64 := by
  have hafter := hc.stop_le (.head _)
  have hstop := hc.stop_lt (s := t) (by simp)
  rw [add64_of_lt (by omega : s.length + t.length < 2 ^ 64), add64_of_lt (by omega)]
  omega

/-- `combine_forward` in front of the last segment. -/
theorem combineForward_last (hc : h.Chain (pre ++ [s, t])) (ht : t.free = true) :
    h.combineForward s.addr = ((h.setLastHeader s.addr).setLength s.addr
      (s.length + headerSize + t.length)).setNext s.addr 0 := by
  have hafter := hc.stop_le (.head _)
  have hpos := hc.addr_pos (s := t) (by simp)
  have hlen : h.field .length s.addr = s.length := hc.length_eq
  have hlen' : h.field .length t.addr = t.length := hc.shift.length_eq
  have hnext : h.field .next s.addr = t.addr := hc.next_eq
  have hnext' : h.field .next t.addr = 0 := hc.shift.next_eq
  have hfree : h.isFree t.addr = true := hc.shift.isFree_eq.trans ht
  have hlast : h.sLastHeader = t.addr := hc.lastHeader_eq
  have hne : t.addr ≠ 0 := by omega
  simp (disch := omega) only [combineForward, next, length, setLength, setNext, hnext, hnext',
    hlen, hlen', hfree, hlast, hne, setLastHeader_field, field_setField, field_setField_of_apart,
    if_true, if_false, reduceCtorEq, ne_eq, not_true_eq_false, Bool.true_eq_false,
    (combined_length hc).1]

/-- `combine_forward` with a segment behind the one it takes in. -/
theorem combineForward_inner (hc : h.Chain (pre ++ s :: t :: u :: post)) (ht : t.free = true) :
    h.combineForward s.addr = ((h.setLast u.addr s.addr).setLength s.addr
      (s.length + headerSize + t.length)).setNext s.addr u.addr := by
  have hst := hc.stop_le (.head _)
  have htu := hc.shift.stop_le (.head _)
  have hpos := hc.addr_pos (s := t) (by simp)
  have hlen : h.field .length s.addr = s.length := hc.length_eq
  have hlen' : h.field .length t.addr = t.length := hc.shift.length_eq
  have hnext : h.field .next s.addr = t.addr := hc.next_eq
  have hnext' : h.field .next t.addr = u.addr := hc.shift.next_eq
  have hfree : h.isFree t.addr = true := hc.shift.isFree_eq.trans ht
  have hlast : t.addr ≠ h.sLastHeader := by
    obtain ⟨r, hr, heq⟩ := exists_mem_lastAddr (List.cons_ne_nil u post) t.addr
    have hafter := hc.shift.stop_le hr
    rw [hc.shift.lastHeader_eq, heq]
    unfold headerSize at hafter
    omega
  have hne : t.addr ≠ 0 := by omega
  have hne' : u.addr ≠ 0 := by omega
  simp (disch := omega) only [combineForward, next, length, setLast, setLength, setNext, hnext,
    hnext', hlen, hlen', hfree, hlast, hne, hne', field_setField, field_setField_of_apart,
    if_true, if_false, reduceCtorEq, ne_eq, not_false_eq_true, Bool.true_eq_false,
    (combined_length hc).1]

/-- What `combine_forward` writes when it takes in a segment. -/
theorem combineForward_effect (hc : h.Chain (pre ++ s :: t :: post)) (ht : t.free = true) :
    Writes (s.addr :: (post.take 1).map Segment.addr) h (h.combineForward s.addr) ∧
      (h.combineForward s.addr).header s.addr =
        ⟨lastAddr 0 pre, headAddr post 0, s.length + headerSize + t.length, s.free⟩ ∧
      (∀ u rest, post = u :: rest →
        (h.combineForward s.addr).header u.addr = { h.header u.addr with last := s.addr }) ∧
      (h.combineForward s.addr).sLastHeader = lastAddr s.addr post := by
  have hst := hc.stop_le (.head _)
  have hlen := (combined_length hc).2
  obtain _ | ⟨u, post⟩ := post
  · rw [combineForward_last hc ht]
    refine ⟨?_, ?_, by simp, rfl⟩
    · exact ((Writes.refl _ h).trans (.setField (h.setLastHeader s.addr) _ _ (.head _))).trans
        (.setField _ _ _ (.head _))
    · rw [header_setNext_self (by decide), header_setLength_self hlen, setLastHeader_header,
        hc.header_eq]
      rfl
  · have htu := hc.shift.stop_le (.head _)
    have hapart : s.addr + headerSize ≤ u.addr ∨ u.addr + headerSize ≤ s.addr := by omega
    have hu := hc.stop_lt (s := u) (by simp)
    rw [combineForward_inner hc ht]
    refine ⟨?_, ?_, ?_, ?_⟩
    · exact ((Writes.setField h _ _ (by simp)).trans (.setField _ _ _ (.head _))).trans
        (.setField _ _ _ (.head _))
    · rw [header_setNext_self (by omega), header_setLength_self hlen, setLast,
        header_setField_of_apart hapart.symm, hc.header_eq]
      rfl
    · rintro u' rest ⟨⟩
      rw [setNext, header_setField_of_apart hapart, setLength, header_setField_of_apart hapart,
        header_setLast_self (by omega)]
    · exact hc.lastHeader_eq

theorem combineForward_sameArena (h : Heap) (a : ℕ) : SameArena h (h.combineForward a) := by
  unfold combineForward
  split
  · exact .refl h
  · split
    · exact .refl h
    · extract_lets h₁ h₂ h₃
      have h₁_same : SameArena h h₁ := SameArena.ite ⟨rfl, rfl, rfl⟩ (.refl h)
      clear_value h₁
      have h₂_same : SameArena h₁ h₂ := SameArena.ite (.setField _ _ _ _) (.refl h₁)
      clear_value h₂
      exact ((h₁_same.trans h₂_same).trans (.setField _ _ _ _)).trans (.setField _ _ _ _)

theorem tiles_absorb {x y : ℕ} (hst : Tiles headerSize x [s, t] y) :
    Tiles headerSize x [⟨s.addr, s.length + headerSize + t.length, s.free⟩] y := by
  obtain ⟨hs, ht, hy⟩ := hst
  refine ⟨hs, ?_⟩
  simp only [tiles_nil, Segment.stop] at ht hy ⊢
  omega

/-- `combine_forward` in front of a free segment. -/
theorem Chain.combineForward_free (hc : h.Chain (pre ++ s :: t :: post)) (ht : t.free = true) :
    (h.combineForward s.addr).Chain
      (pre ++ ⟨s.addr, s.length + headerSize + t.length, s.free⟩ :: post) := by
  obtain ⟨hw, hs, hu, hlast⟩ := combineForward_effect hc ht
  have hsame := combineForward_sameArena h s.addr
  have hst := hc.stop_le (.head _)
  have hmid : h.Chain (pre ++ [s, t] ++ post) := by simpa using hc
  suffices hedit : (h.combineForward s.addr).Chain
      (pre ++ [⟨s.addr, s.length + headerSize + t.length, s.free⟩] ++ post) by simpa using hedit
  refine hmid.edit (A := [s.addr]) (by simpa using hw) (by simp) (by simp) rfl ?_ ?_ hu hlast
    hsame.start ?_ ?_ ?_
  · intro a ha
    obtain rfl := List.mem_singleton.mp ha
    refine ⟨Nat.le_refl _, fun u hu => ?_⟩
    have htu := hc.shift.stop_le hu
    omega
  · exact ⟨hs, trivial⟩
  · rw [hsame.stop]
    exact hmid.tiles.splice fun x y => tiles_absorb
  · rw [hsame.stop]
    exact hc.end_lt
  · have hlong := hc.long s (by simp)
    simp only [List.mem_singleton, forall_eq]
    omega

theorem Chain.combineForward (hc : h.Chain (pre ++ s :: post)) :
    (h.combineForward s.addr).Chain (pre ++ absorb s post) := by
  obtain _ | ⟨t, post⟩ := post
  · rw [combineForward_of_next_eq_zero hc.next_eq]
    exact hc
  · cases ht : t.free with
    | true =>
      rw [absorb, if_pos ht]
      exact hc.combineForward_free ht
    | false =>
      rw [combineForward_of_used, absorb, if_neg (by simp [ht])]
      · exact hc
      · rw [hc.next_eq]
        exact hc.shift.isFree_eq.trans ht

/-- `combine_backward` on the list: the last segment of `pre` takes in the first one of `rest`, if
both are free. -/
def absorbBack : List Segment → List Segment → List Segment
  | [], rest => rest
  | [s], rest => if s.free then absorb s rest else s :: rest
  | s :: t :: pre, rest => s :: absorbBack (t :: pre) rest

theorem absorbBack_concat (pre : List Segment) (s : Segment) (rest : List Segment) :
    absorbBack (pre ++ [s]) rest = pre ++ if s.free then absorb s rest else s :: rest := by
  induction pre with
  | nil => rfl
  | cons r pre ih =>
    rw [List.cons_append, List.cons_append, ← ih]
    cases pre <;> rfl

theorem combineBackward_eq (hc : h.Chain (pre ++ s :: t :: post)) :
    h.combineBackward t.addr = if s.free then h.combineForward s.addr else h := by
  have hprev : h.last t.addr = s.addr := hc.last_succ
  have hpos := hc.addr_pos (s := s) (by simp)
  rw [combineBackward, hprev, if_neg (by omega), hc.isFree_eq]
  cases s.free with
  | true => rw [if_neg (by decide), if_pos rfl]
  | false => rw [if_pos rfl, if_neg (by decide)]

theorem combineBackward_first (hc : h.Chain (s :: post)) : h.combineBackward s.addr = h := by
  have hprev : h.last s.addr = lastAddr 0 [] := Chain.prev_eq hc
  rw [combineBackward, hprev, lastAddr_nil, if_pos rfl]

theorem Chain.combineBackward (hc : h.Chain (pre ++ t :: post)) :
    (h.combineBackward t.addr).Chain (absorbBack pre (t :: post)) := by
  obtain rfl | ⟨pre, s, rfl⟩ := List.eq_nil_or_concat pre
  · rw [combineBackward_first hc]
    exact hc
  · have hc' : h.Chain (pre ++ s :: t :: post) := by simpa using hc
    rw [List.concat_eq_append, absorbBack_concat, combineBackward_eq hc']
    split
    · exact hc'.combineForward
    · exact hc'

theorem combineBackward_sameArena (h : Heap) (a : ℕ) : SameArena h (h.combineBackward a) := by
  unfold combineBackward
  exact .ite (.refl h) (.ite (.refl h) (combineForward_sameArena h _))

/-! ### Splitting -/

theorem split_of_short {n : ℕ} (hc : h.Chain (pre ++ s :: post)) (hn : n < s.length)
    (hshort : n < 8 ∨ s.length < n + headerSize + 8) : h.split s.addr n = (h, 0) := by
  have hstop := hc.stop_lt (s := s) (by simp)
  have hlen := hc.length_eq
  by_cases hfit : s.length < n + headerSize
  · rw [Heap.split, hlen, add64_of_lt (by omega), if_pos hfit]
  · by_cases hsmall : n < 8
    · rw [Heap.split, hlen, add64_of_lt (by omega), if_neg hfit, if_pos hsmall]
    · have hrest : s.length - n - headerSize < 8 := by omega
      simp (disch := omega) only [Heap.split, hlen, add64_of_lt, sub64_of_le, hfit, hsmall, hrest,
        if_true, if_false]

/-- The assignments that `split` makes in either case: the segment at `a` is cut to `n` bytes, and
what is left of it gets its header at `b`. -/
def cut (h : Heap) (a b n rest : ℕ) (free : Bool) : Heap :=
  ((((h.setNext a b).setLast b a).setLength a n).setLength b rest).setFree b free

theorem cut_effect {n rest : ℕ} (hab : a + headerSize ≤ b ∨ b + headerSize ≤ a) (ha : a < 2 ^ 64)
    (hb : b < 2 ^ 64) (hn : n < 2 ^ 64) (hrest : rest < 2 ^ 64) (free : Bool) :
    Writes [a, b] h (h.cut a b n rest free) ∧
      (h.cut a b n rest free).header a = { h.header a with next := b, length := n } ∧
      (h.cut a b n rest free).header b = ⟨a, h.next b, rest, free⟩ := by
  refine ⟨?_, ?_, ?_⟩
  · exact ((((Writes.setField h _ _ (by simp)).trans (.setField _ _ _ (by simp))).trans
      (.setField _ _ _ (by simp))).trans (.setField _ _ _ (by simp))).trans
      (.setField _ _ _ (by simp))
  · rw [cut, setFree, header_setField_of_apart hab.symm, setLength,
      header_setField_of_apart hab.symm,
      header_setLength_self hn, setLast, header_setField_of_apart hab.symm, header_setNext_self hb]
  · rw [cut, header_setFree_self, header_setLength_self hrest, setLength,
      header_setField_of_apart hab, header_setLast_self ha, setNext, header_setField_of_apart hab]
    rfl

/-- `split` of the last segment. -/
theorem split_last {n : ℕ} (hc : h.Chain (pre ++ [s])) (hn : 8 ≤ n)
    (hlen : n + headerSize + 8 ≤ s.length) :
    h.split s.addr n = (((h.setNext (s.addr + headerSize + n) 0).setLastHeader
      (s.addr + headerSize + n)).cut s.addr (s.addr + headerSize + n) n (s.length - n - headerSize)
      s.free, s.addr) := by
  have hstop := hc.stop_lt (s := s) (by simp)
  have hlength : h.field .length s.addr = s.length := hc.length_eq
  have hnext : h.field .next s.addr = 0 := hc.next_eq
  have hfree : h.isFree s.addr = s.free := hc.isFree_eq
  have hfit : ¬s.length < n + headerSize := by omega
  have hn' : ¬n < 8 := by omega
  have hrest : ¬s.length - n - headerSize < 8 := by omega
  rw [isFree] at hfree
  simp (disch := omega) only [split, cut, length, next, isFree, setNext, setLast, setLength,
    hlength,
    hnext, hfree, add64_of_lt, sub64_of_le, hfit, hn', hrest, setLastHeader_field, field_setField,
    field_setField_of_apart, if_false, reduceCtorEq, ne_eq, not_true_eq_false]

/-- `split` of a segment with another one behind it. -/
theorem split_inner {n : ℕ} (hc : h.Chain (pre ++ s :: u :: post)) (hn : 8 ≤ n)
    (hlen : n + headerSize + 8 ≤ s.length) :
    h.split s.addr n = (((h.setLast u.addr (s.addr + headerSize + n)).setNext
      (s.addr + headerSize + n) u.addr).cut s.addr (s.addr + headerSize + n) n
      (s.length - n - headerSize) s.free, s.addr) := by
  have hstop := hc.stop_lt (s := s) (by simp)
  have hsu := hc.stop_le (.head _)
  have hlength : h.field .length s.addr = s.length := hc.length_eq
  have hnext : h.field .next s.addr = u.addr := hc.next_eq
  have hfree : h.isFree s.addr = s.free := hc.isFree_eq
  have hfit : ¬s.length < n + headerSize := by omega
  have hn' : ¬n < 8 := by omega
  have hrest : ¬s.length - n - headerSize < 8 := by omega
  have hu : u.addr ≠ 0 := Nat.ne_of_gt (hc.addr_pos (s := u) (by simp))
  rw [isFree] at hfree
  simp (disch := omega) only [split, cut, length, next, isFree, setNext, setLast, setLength,
    hlength,
    hnext, hfree, add64_of_lt, sub64_of_le, hfit, hn', hrest, hu, field_setField,
    field_setField_of_apart, if_true, if_false, reduceCtorEq, ne_eq, not_false_eq_true]

/-- What a successful `split` writes. -/
theorem split_effect {n : ℕ} (hc : h.Chain (pre ++ s :: post)) (hn : 8 ≤ n)
    (hlen : n + headerSize + 8 ≤ s.length) :
    Writes (s.addr :: (s.addr + headerSize + n) :: (post.take 1).map Segment.addr) h
        (h.split s.addr n).1 ∧
      SameArena h (h.split s.addr n).1 ∧
      (h.split s.addr n).1.header s.addr =
        ⟨lastAddr 0 pre, s.addr + headerSize + n, n, s.free⟩ ∧
      (h.split s.addr n).1.header (s.addr + headerSize + n) =
        ⟨s.addr, headAddr post 0, s.length - n - headerSize, s.free⟩ ∧
      (∀ u rest, post = u :: rest → (h.split s.addr n).1.header u.addr =
        { h.header u.addr with last := s.addr + headerSize + n }) ∧
      (h.split s.addr n).1.sLastHeader = lastAddr (s.addr + headerSize + n) post ∧
      (h.split s.addr n).2 = s.addr := by
  have hstop := hc.stop_lt (s := s) (by simp)
  have hab : s.addr + headerSize ≤ s.addr + headerSize + n ∨
    s.addr + headerSize + n + headerSize ≤ s.addr := by omega
  have hcut := fun g : Heap => cut_effect (h := g) hab (by omega) (by omega)
    (show n < 2 ^ 64 by omega) (show s.length - n - headerSize < 2 ^ 64 by omega) s.free
  -- without a next segment `sLastHeader` is set in place of its link
  obtain _ | ⟨u, post⟩ := post
  · rw [split_last hc hn hlen]
    obtain ⟨hw, ha, hb⟩ := hcut ((h.setNext (s.addr + headerSize + n) 0).setLastHeader
      (s.addr + headerSize + n))
    have hfirst : Writes [s.addr, s.addr + headerSize + n] h
        ((h.setNext (s.addr + headerSize + n) 0).setLastHeader (s.addr + headerSize + n)) :=
      Writes.setField h _ _ (by simp)
    refine ⟨hfirst.trans hw, ⟨rfl, rfl, rfl⟩, ?_, ?_, by simp, rfl, rfl⟩
    · rw [ha, setLastHeader_header, setNext, header_setField_of_apart hab.symm, hc.header_eq]
    · rw [hb, ← header_next, setLastHeader_header, header_setNext_self (by decide)]
      rfl
  · have hsu := hc.stop_le (.head _)
    have hu := hc.stop_lt (s := u) (by simp)
    have hau : s.addr + headerSize ≤ u.addr ∨ u.addr + headerSize ≤ s.addr := by omega
    have hbu : s.addr + headerSize + n + headerSize ≤ u.addr ∨
      u.addr + headerSize ≤ s.addr + headerSize + n := by omega
    rw [split_inner hc hn hlen]
    obtain ⟨hw, ha, hb⟩ := hcut ((h.setLast u.addr (s.addr + headerSize + n)).setNext
      (s.addr + headerSize + n) u.addr)
    refine ⟨?_, ⟨rfl, rfl, rfl⟩, ?_, ?_, ?_, hc.lastHeader_eq, rfl⟩
    · exact ((Writes.setField h _ _ (by simp)).trans (.setField _ _ _ (by simp))).trans
        (hw.mono (by simp))
    · rw [ha, setNext, header_setField_of_apart hab.symm, setLast,
        header_setField_of_apart hau.symm, hc.header_eq]
    · rw [hb, ← header_next, header_setNext_self (by omega)]
      rfl
    · rintro u' rest ⟨⟩
      rw [hw.header_eq (by simp [hau, hbu]), setNext, header_setField_of_apart hbu,
        header_setLast_self (by omega)]

/-- Two segments and the header between them tile what the segment they were cut from tiles. -/
theorem tiles_split {x y n : ℕ} {b : Bool} (hlen : n + headerSize ≤ s.length)
    (hs : Tiles headerSize x [s] y) :
    Tiles headerSize x
      [⟨s.addr, n, b⟩, ⟨s.addr + headerSize + n, s.length - n - headerSize, s.free⟩] y := by
  obtain ⟨hs, hy⟩ := hs
  refine ⟨hs, rfl, ?_⟩
  simp only [tiles_nil, Segment.stop] at hy ⊢
  omega

/-- A successful `split` on the list of segments. -/
theorem Chain.split {n : ℕ} (hc : h.Chain (pre ++ s :: post)) (hn : 8 ≤ n)
    (hlen : n + headerSize + 8 ≤ s.length) :
    (h.split s.addr n).1.Chain (pre ++ ⟨s.addr, n, s.free⟩ ::
      ⟨s.addr + headerSize + n, s.length - n - headerSize, s.free⟩ :: post) := by
  obtain ⟨hw, hsame, ha, hb, hu, hlast, -⟩ := split_effect hc hn hlen
  suffices hedit : (h.split s.addr n).1.Chain (pre ++ [⟨s.addr, n, s.free⟩,
      ⟨s.addr + headerSize + n, s.length - n - headerSize, s.free⟩] ++ post) by simpa using hedit
  refine hc.shift.edit (A := [s.addr, s.addr + headerSize + n]) (by simpa using hw) (by simp)
    (by simp) rfl ?_ ⟨ha, hb, trivial⟩ hu hlast hsame.start ?_ ?_ ?_
  · intro a ha
    refine ⟨?_, fun u hu => ?_⟩
    · simp only [List.mem_cons, List.not_mem_nil, or_false] at ha
      rw [headAddr_cons]
      omega
    · have hafter := hc.stop_le hu
      simp only [List.mem_cons, List.not_mem_nil, or_false] at ha
      omega
  · rw [hsame.stop]
    exact hc.shift.tiles.splice fun x y => tiles_split (by omega)
  · rw [hsame.stop]
    exact hc.end_lt
  · simp only [List.mem_cons, List.not_mem_nil, or_false, forall_eq_or_imp, forall_eq]
    omega

end Operations

end Heap

end Eterna
