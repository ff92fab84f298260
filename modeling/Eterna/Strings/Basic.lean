import Eterna.Strings.Store

/-!
# The operations of `String`

`String` keeps a buffer from `new uint8_t[]` and the number of its bytes.  Every operation that
changes a string allocates a new buffer, fills it, and deletes the old one.

* `String.Renews` : what all these operations have in common;
* `String.plus_ends` and the like : for every operation, that it uses and deletes nothing that is
  not allocated, and what it makes of the string.
-/

namespace Eterna

open ByteMemory Outcome Store

/-- `STRING_INITIAL_LENGTH`. -/
def stringInitialLength : ℕ := 10

/-- The fields of a `String`. -/
structure String where
  buffer : ℕ
  length : ℕ

namespace String

/-- `String::Side`. -/
inductive Side where
  | left
  | right
  deriving DecidableEq

section Operations

variable (σ : Store) (a : Answer)

/-- `String()`. -/
def construct : Except Stop (Store × String) := do
  let length := stringInitialLength
  let (σ, buffer) ← σ.new a (add64 length 1)
  let σ ← σ.memset buffer 0 length
  return (σ, ⟨buffer, length⟩)

/-- `String(const String& original)`. -/
def constructCopy (original : String) : Except Stop (Store × String) := do
  let length := original.length
  let (σ, buffer) ← σ.new a (add64 length 1)
  let σ ← σ.write buffer length 0
  σ.touch original.buffer
  return (σ.memcpy original.buffer buffer length, ⟨buffer, length⟩)

/-- `String(const char* cstr)`. -/
def constructCString (cstr : ℕ) : Except Stop (Store × String) := do
  let length := sub64 (← σ.strlen cstr) 1
  let (σ, buffer) ← σ.new a (add64 length 1)
  return (σ.memcpy cstr buffer (add64 length 1), ⟨buffer, length⟩)

/-- `String(const char* cstr, uint64_t byteCount)`. -/
def constructBytes (cstr byteCount : ℕ) : Except Stop (Store × String) := do
  let length := byteCount
  let (σ, buffer) ← σ.new a (add64 length 1)
  let σ := σ.memcpy cstr buffer length
  let σ ← σ.write buffer length 0
  return (σ, ⟨buffer, length⟩)

/-- `~String()`. -/
def destroy (s : String) : Except Stop Store := σ.delete a s.buffer

/-- `chop(index, side)`. -/
def chop (s : String) (index : ℕ) (side : Side) : Except Stop (Store × String) :=
  if sub64 s.length 1 < index then return (σ, s)
  else match side with
    | .left => do
      let length := index
      let (σ, buffer) ← σ.new a (add64 length 1)
      σ.touch s.buffer
      let σ := σ.memcpy s.buffer buffer length
      let σ ← σ.write buffer length 0
      let σ ← σ.delete a s.buffer
      return (σ, ⟨buffer, length⟩)
    | .right => do
      σ.touch s.buffer
      let length := sub64 (← σ.strlen (add64 s.buffer index)) 1
      let (σ, buffer) ← σ.new a (add64 length 1)
      σ.touch s.buffer
      let σ := σ.memcpy (add64 s.buffer index) buffer (add64 length 1)
      let σ ← σ.delete a s.buffer
      return (σ, ⟨buffer, length⟩)

/-- `data_copy()`. -/
def dataCopy (s : String) : Except Stop (Store × ℕ) := do
  let (σ, copy) ← σ.new a (add64 s.length 1)
  σ.touch s.buffer
  let σ := σ.memcpy s.buffer copy s.length
  let σ ← σ.write copy s.length 0
  return (σ, copy)

/-- `operator=(const String& other)`; `this` and `that` are the addresses of the two objects. -/
def assign (this : ℕ) (s : String) (that : ℕ) (other : String) : Except Stop (Store × String) :=
  if this = that then return (σ, s)
  else do
    let length := other.length
    let σ ← σ.delete a s.buffer
    let (σ, buffer) ← σ.new a (add64 length 1)
    let σ ← σ.write buffer length 0
    σ.touch other.buffer
    return (σ.memcpy other.buffer buffer length, ⟨buffer, length⟩)

/-- `operator=(String&& other)`, which changes `other` as well. -/
def moveAssign (this : ℕ) (s : String) (that : ℕ) (other : String) :
    Except Stop (Store × String × String) :=
  if this = that then return (σ, s, other)
  else do
    let σ ← σ.delete a s.buffer
    return (σ, ⟨other.buffer, other.length⟩, ⟨0, 0⟩)

/-- `operator+(const String& other)`. -/
def plus (this : ℕ) (s : String) (that : ℕ) (other : String) : Except Stop (Store × String) :=
  if this = that then return (σ, s)
  else do
    let oldLength := s.length
    let length := add64 s.length other.length
    let (σ, newBuffer) ← σ.new a (add64 length 1)
    σ.touch s.buffer
    let σ := σ.memcpy s.buffer newBuffer oldLength
    σ.touch other.buffer
    let σ := σ.memcpy other.buffer (add64 newBuffer oldLength) other.length
    let σ ← σ.delete a s.buffer
    return (σ, ⟨newBuffer, length⟩)

/-- `operator+(const char* cstr)`. -/
def plusCString (s : String) (cstr : ℕ) : Except Stop (Store × String) :=
  if cstr = 0 then return (σ, s)
  else do
    let stringLength ← σ.strlen cstr
    if stringLength ≤ 1 then return (σ, s)
    else
      let oldLength := s.length
      let length := add64 s.length (sub64 stringLength 1)
      let (σ, newBuffer) ← σ.new a (add64 length 1)
      σ.touch s.buffer
      let σ := σ.memcpy s.buffer newBuffer oldLength
      let σ := σ.memcpy cstr (add64 newBuffer oldLength) (sub64 stringLength 1)
      let σ ← σ.write newBuffer length 0
      let σ ← σ.delete a s.buffer
      return (σ, ⟨newBuffer, length⟩)

/-- `operator+=(const String& rhs)`. -/
def plusAssign (this : ℕ) (s : String) (that : ℕ) (rhs : String) : Except Stop (Store × String) :=
  plus σ a this s that rhs

/-- `operator+=(const char* cstr)`. -/
def plusAssignCString (s : String) (cstr : ℕ) : Except Stop (Store × String) :=
  plusCString σ a s cstr

/-- `operator<<(String& lhs, const String& rhs)`. -/
def shiftLeft (this : ℕ) (lhs : String) (that : ℕ) (rhs : String) : Except Stop (Store × String) :=
  plusAssign σ a this lhs that rhs

end Operations

/-- The bytes of the string. -/
def contents (σ : Store) (s : String) : List UInt8 := bytes σ.mem s.buffer s.length

/-- `Buffer[Length]`. -/
def last (σ : Store) (s : String) : UInt8 := σ.mem (s.buffer + s.length)

/-- The string has a buffer with room for its bytes and a terminator, or is one that was moved
from. -/
def Holds (σ : Store) (s : String) : Prop :=
  s.buffer = 0 ∧ s.length = 0 ∨ (s.buffer, s.length + 1) ∈ σ.blocks

/-- **What the operations have in common**: the string gets a new buffer in place of the one at
`old`, which is null for a constructor, and no other byte changes that is not the heap's own. -/
structure Renews (σ : Store) (old : ℕ) (σ' : Store) (s : String) : Prop where
  fresh : (σ.without old).Fresh s.buffer (s.length + 1)
  blocks : σ'.blocks = (s.buffer, s.length + 1) :: (σ.without old).blocks
  foreign : σ'.foreign = σ.foreign
  mem : ∀ x, (σ.without old).Kept x → σ'.mem x = σ.mem x

variable {σ σ' σ₁ : Store} {a : Answer} {s t : String} {p n old : ℕ} {E : Stop → Prop}

theorem Holds.touchable (h : Holds σ s) : s.buffer = 0 ∨ σ.Allocated s.buffer :=
  h.imp And.left fun hmem => allocated_of_mem hmem

theorem Holds.length_lt (h : Holds σ s) (hσ : σ.Apart) : s.length < 2 ^ 24 := by
  rcases h with ⟨-, hlen⟩ | hmem
  · omega
  · have := hσ.bounds hmem
    unfold heapVirtualBase at this
    omega

theorem Holds.ne_null (h : Holds σ s) (hσ : σ.Apart) (hlen : 0 < s.length) : s.buffer ≠ 0 := by
  rcases h with ⟨-, h0⟩ | hmem
  · omega
  · exact (Nat.zero_lt_of_lt (hσ.bounds hmem).1).ne'

theorem Holds.kept (h : Holds σ s) {i : ℕ} (hi : i < s.length) : σ.Kept (s.buffer + i) := by
  rcases h with ⟨-, hlen⟩ | hmem
  · omega
  · exact kept_of_mem_blocks hmem (by omega)

theorem Renews.of_grants (hσ : σ.Apart) (h : σ.Grants (s.length + 1) σ' s.buffer) :
    Renews σ 0 σ' s :=
  ⟨h.fresh.without 0, by rw [hσ.without_zero]; exact h.blocks, h.foreign, fun x hx =>
    h.mem x hx.of_without⟩

/-- The new buffer first, then the old one is deleted. -/
theorem release_ends (hσ : σ.Apart) (h : σ.Grants (s.length + 1) σ₁ s.buffer)
    (hold : old = 0 ∨ σ.Allocated old) : Ends E (fun σ' => Renews σ old σ' s ∧
      ∀ i ≤ s.length, σ'.mem (s.buffer + i) = σ₁.mem (s.buffer + i)) (σ₁.delete a old) := by
  have hσ₁ : σ₁.Apart := hσ.cons (Nat.succ_pos _) h.fresh h.blocks h.foreign
  have hne : s.buffer ≠ old := by
    rcases hold with rfl | halloc
    · exact h.pos.ne'
    · exact h.fresh.ne hσ (Nat.succ_pos _) halloc
  have hblocks : (σ₁.without old).blocks = (s.buffer, s.length + 1) :: (σ.without old).blocks := by
    rw [without, h.blocks]
    exact List.filter_cons_of_pos (p := fun b : ℕ × ℕ => decide (b.1 ≠ old)) (decide_eq_true hne)
  have hsub : (σ.without old).all ⊆ (σ₁.without old).all := by
    rw [all, all, hblocks, List.cons_append,
      show (σ₁.without old).foreign = (σ.without old).foreign from h.foreign]
    exact List.subset_cons_self _ _
  refine (delete_ends hσ₁ (hold.imp_right h.allocated_of)).mono fun σ' hr => ⟨⟨?_, ?_, ?_, ?_⟩, ?_⟩
  · exact h.fresh.without old
  · rw [hr.blocks, hblocks]
  · exact hr.foreign.trans h.foreign
  · exact fun x hx => (hr.mem x (hx.mono hsub)).trans (h.mem x hx.of_without)
  · intro i hi
    refine hr.mem _ (kept_of_mem_blocks (n := s.length + 1) ?_ (Nat.lt_succ_of_le hi))
    rw [hblocks]
    exact List.mem_cons_self

theorem Renews.of_releases (hσ : σ.Apart) (hr : σ.Releases old σ₁) (h : Renews σ₁ 0 σ' s) :
    Renews σ old σ' s := by
  have hall := hr.all_eq
  obtain ⟨hfresh, hblocks, hforeign, hmem⟩ := h
  rw [(hr.apart hσ).without_zero] at hfresh hblocks hmem
  exact ⟨(fresh_congr hall).1 hfresh, by rw [hblocks, hr.blocks], hforeign.trans hr.foreign,
    fun x hx => (hmem x ((kept_congr hall).2 hx)).trans (hr.mem x hx)⟩

theorem Holds.without (h : Holds σ t) (hσ : σ.Apart) (hne : t.buffer = 0 ∨ t.buffer ≠ old) :
    Holds (σ.without old) t := by
  refine h.imp_right fun hmem => mem_without.2 ⟨hmem, hne.resolve_left ?_⟩
  exact hσ.ne_null (allocated_of_mem hmem)

theorem Holds.of_blocks (h : Holds σ t) (hblocks : ∀ b ∈ σ.blocks, b ∈ σ'.blocks) : Holds σ' t :=
  h.imp_right (hblocks _)

theorem Renews.apart (h : Renews σ old σ' s) (hσ : σ.Apart) : σ'.Apart :=
  (hσ.without old).cons (Nat.succ_pos _) h.fresh h.blocks h.foreign

theorem Renews.mem_blocks (h : Renews σ old σ' s) : (s.buffer, s.length + 1) ∈ σ'.blocks := by
  rw [h.blocks]
  exact List.mem_cons_self

theorem Renews.allocated_iff (h : Renews σ old σ' s) :
    σ'.Allocated p ↔ p = s.buffer ∨ σ.Allocated p ∧ p ≠ old := by
  rw [← allocated_without, Allocated, h.blocks, List.map_cons, List.mem_cons]
  rfl

theorem Renews.ne_null (h : Renews σ old σ' s) : s.buffer ≠ 0 := (Nat.zero_lt_of_lt h.fresh.1).ne'

theorem Renews.ne (h : Renews σ old σ' s) (hσ : σ.Apart) (hp : σ.Allocated p) (hne : p ≠ old) :
    s.buffer ≠ p :=
  h.fresh.ne (hσ.without old) (Nat.succ_pos _) (allocated_without.2 ⟨hp, hne⟩)

theorem contents_memcpy {i : ℕ} (hσ : σ.Apart) (h : σ.Grants n σ₁ p) (ht : Holds σ t)
    (hi : i + t.length ≤ n) :
    bytes (σ₁.memcpy t.buffer (p + i) t.length).mem (p + i) t.length = contents σ t :=
  bytes_congr fun _ hj => h.memcpy_mem hi (ht.ne_null hσ (by omega)) (fun _ hj => ht.kept hj) hj

/-! ### The constructors -/

theorem construct_ends (hσ : σ.Apart) : Ends Harmless (fun r => Renews σ 0 r.1 r.2 ∧
    last r.1 r.2 = a.fresh (a.address + stringInitialLength) ∧
    ∀ i < r.2.length, r.1.mem (r.2.buffer + i) = 0) (construct σ a) := by
  have hn : add64 stringInitialLength 1 = stringInitialLength + 1 := by decide
  dsimp only [construct]
  rw [hn]
  refine new_bind (roundRequest_succ_ne_zero (by decide)) fun σ₁ p hg hp hfresh => ?_
  refine (hg.update_ends (M := fill σ₁.mem p stringInitialLength 0) fun x hx => ?_).bind ?_
  · exact fill_of_notMem (by omega)
  rintro σ₂ ⟨hg₂, hmem⟩
  refine ⟨.of_grants hσ hg₂, ?_, fun i hi => ?_⟩
  · have hend : ¬ σ.Kept (p + stringInitialLength) := hg.fresh.not_kept (by omega)
    show σ₂.mem (p + stringInitialLength) = _
    rw [hmem, fill_of_notMem (.inr le_rfl), hfresh _ hend, hp]
  · show σ₂.mem (p + i) = 0
    rw [hmem]
    exact if_pos ⟨Nat.le_add_right p i, Nat.add_lt_add_left hi p⟩

theorem constructCopy_ends (hσ : σ.Apart) (h : Holds σ s) : Ends Harmless (fun r =>
    Renews σ 0 r.1 r.2 ∧ last r.1 r.2 = 0 ∧ contents r.1 r.2 = contents σ s)
    (constructCopy σ a s) := by
  have hlen := h.length_lt hσ
  dsimp only [constructCopy]
  rw [add64_of_lt (by omega)]
  refine new_bind (roundRequest_succ_ne_zero (by omega)) fun σ₁ p hg _ _ => ?_
  dsimp only
  refine (hg.write_ends (Nat.lt_succ_self _)).bind ?_
  rintro σ₂ ⟨hg₂, hmem⟩
  refine (touch_ends (h.touchable.imp_right hg₂.allocated_of)).bind ?_
  rintro ⟨⟩ -
  refine ⟨.of_grants hσ (hg₂.memcpy s.buffer (i := 0) (by omega)), ?_, ?_⟩
  · show (σ₂.memcpy s.buffer p s.length).mem (p + s.length) = 0
    rw [memcpy_mem_of_notMem (.inr le_rfl), hmem, Function.update_self]
  · exact contents_memcpy (i := 0) hσ hg₂ h (by omega)

theorem constructCString_ends {c : ℕ} (hσ : σ.Apart) (h : σ.CString c n) : Ends Harmless (fun r =>
    Renews σ 0 r.1 r.2 ∧ last r.1 r.2 = 0 ∧ contents r.1 r.2 = bytes σ.mem c n)
    (constructCString σ a c) := by
  have hn := lt_of_readable hσ h.readable
  have hkept : ∀ j < n + 1, σ.Kept (c + j) := fun j hj => (h.readable j (Nat.le_of_lt_succ hj)).2
  dsimp only [constructCString]
  rw [h.strlen hσ]
  refine (ends_ok (P := fun l => l = n + 1) rfl).bind ?_
  rintro _ rfl
  rw [sub64_succ_one (by omega), add64_of_lt (by omega)]
  refine new_bind (roundRequest_succ_ne_zero (by omega)) fun σ₁ p hg _ _ => ?_
  dsimp only
  refine ⟨.of_grants hσ (hg.memcpy c (i := 0) (by omega)), ?_, bytes_congr fun j hj => ?_⟩
  · exact (hg.memcpy_mem (i := 0) (by omega) h.ne_null hkept (Nat.lt_succ_self n)).trans
      h.terminator
  · exact hg.memcpy_mem (i := 0) (by omega) h.ne_null hkept (Nat.lt_succ_of_lt hj)

theorem constructBytes_ends {c : ℕ} (hσ : σ.Apart) (hc : c ≠ 0) (h : ∀ i < n, σ.Readable (c + i)) :
    Ends Harmless (fun r => Renews σ 0 r.1 r.2 ∧ last r.1 r.2 = 0 ∧
      contents r.1 r.2 = bytes σ.mem c n) (constructBytes σ a c n) := by
  have hn : n ≤ 2 ^ 47 := by
    cases n with
    | zero => exact Nat.zero_le _
    | succ n => exact lt_of_readable hσ fun i hi => h i (Nat.lt_succ_of_le hi)
  dsimp only [constructBytes]
  rw [add64_of_lt (by omega)]
  refine new_bind (roundRequest_succ_ne_zero (by omega)) fun σ₁ p hg _ _ => ?_
  dsimp only
  refine hg.terminate_bind (fun _ => hc) (fun j hj => (h j hj).2) fun σ₂ hg₂ hlast hbytes => ?_
  exact ⟨.of_grants hσ hg₂, hlast, hbytes⟩

theorem dataCopy_ends (hσ : σ.Apart) (h : Holds σ s) : Ends Harmless (fun r =>
    Renews σ 0 r.1 ⟨r.2, s.length⟩ ∧ last r.1 ⟨r.2, s.length⟩ = 0 ∧
      contents r.1 ⟨r.2, s.length⟩ = contents σ s) (dataCopy σ a s) := by
  have hlen := h.length_lt hσ
  dsimp only [dataCopy]
  rw [add64_of_lt (by omega)]
  refine new_bind (roundRequest_succ_ne_zero (by omega)) fun σ₁ p hg _ _ => ?_
  dsimp only
  refine (touch_ends (h.touchable.imp_right hg.allocated_of)).bind ?_
  rintro ⟨⟩ -
  refine hg.terminate_bind (h.ne_null hσ) (fun j hj => h.kept hj) fun σ₂ hg₂ hlast hbytes => ?_
  exact ⟨.of_grants hσ hg₂, hlast, hbytes⟩

/-! ### Assignment -/

theorem assign_ends {x y : ℕ} (hxy : x ≠ y) (hσ : σ.Apart) (hs : Holds σ s) (ht : Holds σ t)
    (hst : t.buffer = 0 ∨ t.buffer ≠ s.buffer) : Ends Harmless (fun r =>
      Renews σ s.buffer r.1 r.2 ∧ last r.1 r.2 = 0 ∧ contents r.1 r.2 = contents σ t)
    (assign σ a x s y t) := by
  unfold assign
  rw [if_neg hxy]
  refine (delete_ends hσ hs.touchable).bind fun σ₁ hr => ?_
  have ht₁ : Holds σ₁ t := ht.imp_right fun hmem => by
    have hne : t.buffer ≠ s.buffer := hst.resolve_left (Nat.zero_lt_of_lt (hσ.bounds hmem).1).ne'
    rw [hr.blocks]
    exact mem_without.2 ⟨hmem, hne⟩
  refine (constructCopy_ends (hr.apart hσ) ht₁).mono ?_
  rintro r ⟨hrenews, hlast, hcontents⟩
  refine ⟨hrenews.of_releases hσ hr, hlast, hcontents.trans (bytes_congr fun j hj => hr.mem _ ?_)⟩
  exact (kept_congr hr.all_eq).1 (ht₁.kept hj)

/-! ### Appending -/

theorem plus_ends {x y : ℕ} (hxy : x ≠ y) (hσ : σ.Apart) (hs : Holds σ s) (ht : Holds σ t) :
    Ends Harmless (fun r => Renews σ s.buffer r.1 r.2 ∧ r.2.length = s.length + t.length ∧
      contents r.1 r.2 = contents σ s ++ contents σ t ∧
      last r.1 r.2 = a.fresh (a.address + (s.length + t.length))) (plus σ a x s y t) := by
  have hslen := hs.length_lt hσ
  have htlen := ht.length_lt hσ
  unfold plus
  rw [if_neg hxy]
  dsimp only
  rw [add64_of_lt (a := s.length) (by omega), add64_of_lt (by omega)]
  refine new_bind (roundRequest_succ_ne_zero (by omega)) fun σ₁ p hg hp hnew => ?_
  dsimp only
  rw [hg.fresh.add64 (by omega)]
  refine (touch_ends (hs.touchable.imp_right hg.allocated_of)).bind ?_
  rintro ⟨⟩ -
  have hg₂ := hg.memcpy s.buffer (i := 0) (m := s.length) (by omega)
  refine (touch_ends (ht.touchable.imp_right hg₂.allocated_of)).bind ?_
  rintro ⟨⟩ -
  have hg₃ := hg₂.memcpy t.buffer (i := s.length) (m := t.length) (by omega)
  refine (release_ends (s := ⟨p, s.length + t.length⟩) hσ hg₃ hs.touchable).bind ?_
  -- both halves have been copied, and the byte behind them is as `new` left it
  rintro σ₂ ⟨hrenews, hmem⟩
  dsimp only at hmem
  refine ⟨hrenews, rfl, ?_, ?_⟩
  · refine (bytes_congr fun j hj => hmem j (Nat.le_of_lt hj)).trans (bytes_add.trans ?_)
    have hfirst : bytes ((σ₁.memcpy s.buffer p s.length).memcpy t.buffer (p + s.length)
        t.length).mem p s.length = contents σ s := by
      refine (bytes_congr fun j hj => ?_).trans (contents_memcpy (i := 0) hσ hg hs (by omega))
      exact memcpy_mem_of_notMem (by omega)
    have hsecond := contents_memcpy (i := s.length) hσ hg₂ ht (by omega)
    exact congrArg₂ _ hfirst hsecond
  · have hend : ¬ σ.Kept (p + (s.length + t.length)) := hg.fresh.not_kept (by omega)
    refine (hmem _ le_rfl).trans ?_
    rw [memcpy_mem_of_notMem (by omega), memcpy_mem_of_notMem (by omega), hnew _ hend, hp]

theorem plusCString_ends {c : ℕ} (hσ : σ.Apart) (hs : Holds σ s) (hc : c = 0 ∨ ∃ n, σ.CString c n) :
    Ends Harmless (fun r => r = (σ, s) ∨ Renews σ s.buffer r.1 r.2 ∧ last r.1 r.2 = 0)
      (plusCString σ a s c) := by
  have hslen := hs.length_lt hσ
  unfold plusCString
  split_ifs with h0
  · exact .inl rfl
  obtain ⟨n, hn⟩ := hc.resolve_left h0
  have hnlt := lt_of_readable hσ hn.readable
  rw [hn.strlen hσ]
  refine (ends_ok (P := fun l => l = n + 1) rfl).bind ?_
  rintro _ rfl
  split_ifs with h1
  · exact .inl rfl
  dsimp only
  rw [sub64_succ_one (by omega), add64_of_lt (a := s.length) (by omega), add64_of_lt (by omega)]
  refine new_bind (roundRequest_succ_ne_zero (by omega)) fun σ₁ p hg _ _ => ?_
  dsimp only
  rw [hg.fresh.add64 (by omega)]
  refine (touch_ends (hs.touchable.imp_right hg.allocated_of)).bind ?_
  rintro ⟨⟩ -
  have hg₂ := hg.memcpy s.buffer (i := 0) (m := s.length) (by omega)
  have hg₃ := hg₂.memcpy c (i := s.length) (m := n) (by omega)
  refine (hg₃.write_ends (Nat.lt_succ_self _)).bind ?_
  rintro σ₂ ⟨hg₄, hwrite⟩
  refine (release_ends (s := ⟨p, s.length + n⟩) hσ hg₄ hs.touchable).bind ?_
  rintro σ₃ ⟨hrenews, hmem⟩
  refine .inr ⟨hrenews, (hmem _ le_rfl).trans ?_⟩
  rw [hwrite, Function.update_self]

/-! ### Chopping -/

theorem chop_left_ends {i : ℕ} (hσ : σ.Apart) (hs : Holds σ s) (hi : i < 2 ^ 64) :
    Ends Harmless (fun r => r = (σ, s) ∨ Renews σ s.buffer r.1 r.2 ∧ last r.1 r.2 = 0)
      (chop σ a s i .left) := by
  unfold chop
  split_ifs
  · exact .inl rfl
  dsimp only
  by_cases hround : Heap.roundRequest (add64 i 1) = 0
  · -- the new buffer is null, and the terminator is written through it
    rw [new_null a hround]
    refine (ends_ok (P := fun r => r = (σ, 0)) rfl).bind ?_
    rintro _ rfl
    refine (touch_ends hs.touchable).bind fun _ _ => ?_
    rw [show σ.memcpy s.buffer 0 i = σ from if_neg fun h => h.1 rfl]
    exact ⟨by decide, by decide⟩
  have hsmall : i + 1 < 2 ^ 64 := by
    by_contra hmax
    have hwrap : add64 i 1 = 0 := by rw [add64, show i + 1 = 2 ^ 64 by omega, Nat.mod_self]
    exact hround (by rw [hwrap]; rfl)
  rw [add64_of_lt hsmall] at hround ⊢
  refine new_bind hround fun σ₁ p hg _ _ => ?_
  dsimp only
  refine (touch_ends (hs.touchable.imp_right hg.allocated_of)).bind ?_
  rintro ⟨⟩ -
  refine ((hg.memcpy s.buffer (i := 0) (m := i) (by omega)).write_ends (Nat.lt_succ_self i)).bind ?_
  rintro σ₂ ⟨hg₂, hwrite⟩
  refine (release_ends (s := ⟨p, i⟩) hσ hg₂ hs.touchable).bind ?_
  rintro σ₃ ⟨hrenews, hmem⟩
  refine .inr ⟨hrenews, (hmem i le_rfl).trans ?_⟩
  rw [hwrite, Function.update_self]

theorem chop_right_ends {i : ℕ} (hσ : σ.Apart) (hs : Holds σ s) :
    Ends Harmless (fun r => r = (σ, s) ∨ Renews σ s.buffer r.1 r.2 ∧
      ((s.buffer, s.length + 1) ∈ σ.blocks → last σ s = 0 → (s.length = 0 → i = 0) →
        last r.1 r.2 = 0)) (chop σ a s i .right) := by
  unfold chop
  split_ifs with hindex
  · exact .inl rfl
  dsimp only
  refine (touch_ends hs.touchable).bind fun _ _ => ?_
  refine strlen_bind fun n hn hzero hchars => ?_
  rw [sub64_succ_one (by omega), add64_of_lt (a := n) (by omega)]
  refine new_bind (roundRequest_succ_ne_zero (by omega)) fun σ₁ p hg _ _ => ?_
  dsimp only
  refine (touch_ends (hs.touchable.imp_right hg.allocated_of)).bind ?_
  rintro ⟨⟩ -
  have hg₂ := hg.memcpy (add64 s.buffer i) (i := 0) (m := n + 1) (by omega)
  refine (release_ends (s := ⟨p, n⟩) hσ hg₂ hs.touchable).bind ?_
  rintro σ₂ ⟨hrenews, hmem⟩
  refine .inr ⟨hrenews, fun hblock hlast hempty => (hmem n le_rfl).trans ?_⟩
  -- the string that starts at the index ends with the buffer at the latest
  obtain ⟨hlow, -, hhigh⟩ := hσ.bounds hblock
  have hle : i ≤ s.length := by
    by_cases h0 : s.length = 0
    · rw [hempty h0]
      exact Nat.zero_le _
    · rw [sub64_of_le (by omega) (by omega)] at hindex
      omega
  rw [add64_of_lt (by omega)] at hzero hchars
  rw [add64_of_lt (by omega)]
  have hend : i + n ≤ s.length := by
    by_contra hlt
    refine hchars (s.length - i) (by omega) ?_
    rw [show s.buffer + i + (s.length - i) = s.buffer + s.length by omega]
    exact hlast
  refine (hg.memcpy_mem (i := 0) (m := n + 1) (by omega) (by omega) (fun j hj => ?_)
    (Nat.lt_succ_self n)).trans hzero
  rw [Nat.add_assoc]
  exact kept_of_mem_blocks hblock (by omega)

end String

end Eterna
