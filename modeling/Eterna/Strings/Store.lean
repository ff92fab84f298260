import Eterna.Library.ByteMemory
import Eterna.Library.Outcome
import Eterna.Memory.Heap

/-!
# The heap as its clients see it

`operator new[]` and `operator delete[]` are `malloc` and `free`.  Their callers see the bytes of
memory and which blocks are allocated; where the next block lies, what it contains and what becomes
of the memory of a freed block is up to the heap, so each call takes an answer of the heap.

* `Store.Apart` : the allocated blocks lie in the heap and do not overlap;
* `Store.Grants` : what `new` leaves, and what writing into the new block keeps;
* `Store.without` : what `delete` leaves.
-/

namespace Eterna

open ByteMemory Outcome

/-- Memory and the allocated blocks, each with its address and size. -/
structure Store where
  mem : Memory
  /-- The blocks that the operations of `String` have allocated and not freed. -/
  blocks : List (ℕ × ℕ)
  /-- The blocks of others. -/
  foreign : List (ℕ × ℕ)

/-- Why an operation does not return. -/
inductive Stop where
  /-- The heap does not give this answer. -/
  | refused
  /-- There is no terminator as far as addresses are canonical. -/
  | unterminated
  /-- A null pointer is written through. -/
  | fault
  /-- A pointer to a block that is not allocated is used. -/
  | useAfterFree
  /-- A pointer to a block that is not allocated is deleted. -/
  | doubleFree
  deriving DecidableEq

/-- What the heap answers to `new` and `delete`: the address of the new block, and the contents of
the bytes that are the heap's own after either call. -/
structure Answer where
  address : ℕ
  fresh : Memory
  freed : Memory

namespace Store

variable (σ : Store) (a : Answer)

/-- All allocated blocks. -/
def all : List (ℕ × ℕ) := σ.blocks ++ σ.foreign

/-- `p` is the address of a block of a `String` operation. -/
def Allocated (p : ℕ) : Prop := p ∈ σ.blocks.map Prod.fst

instance : DecidablePred σ.Allocated := fun _ => inferInstanceAs (Decidable (_ ∈ _))

/-- The heap does not write to this address: it lies below the heap, or in an allocated block. -/
def Kept (x : ℕ) : Prop := x < heapVirtualBase ∨ ∃ b ∈ σ.all, b.1 ≤ x ∧ x < b.1 + b.2

instance : DecidablePred σ.Kept := fun _ => inferInstanceAs (Decidable (_ ∨ ∃ b ∈ _, _))

/-- The `n` bytes from `p` on lie in the heap and in no allocated block. -/
def Fresh (p n : ℕ) : Prop :=
  heapVirtualBase < p ∧ p + n < 2 ^ 64 ∧ ∀ b ∈ σ.all, p + n ≤ b.1 ∨ b.1 + b.2 ≤ p

instance (p n : ℕ) : Decidable (σ.Fresh p n) := inferInstanceAs (Decidable (_ ∧ _ ∧ ∀ b ∈ _, _))

/-- The store without the block at `p`. -/
def without (p : ℕ) : Store := { σ with blocks := σ.blocks.filter fun b => b.1 ≠ p }

/-- `new uint8_t[n]`.  `malloc` returns `nullptr` if the request, rounded up, is 0. -/
def new (n : ℕ) : Except Stop (Store × ℕ) :=
  if Heap.roundRequest n = 0 then .ok (σ, 0)
  else if σ.Fresh a.address n then
    .ok ({ σ with
      mem := fun x => if σ.Kept x then σ.mem x else a.fresh x
      blocks := (a.address, n) :: σ.blocks }, a.address)
  else .error .refused

/-- `delete[] p`, which calls nothing for a null pointer. -/
def delete (p : ℕ) : Except Stop Store :=
  if p = 0 then .ok σ
  else if σ.Allocated p then
    .ok { σ.without p with mem := fun x => if (σ.without p).Kept x then σ.mem x else a.freed x }
  else .error .doubleFree

/-- The block at `p` is read. -/
def touch (p : ℕ) : Except Stop Unit :=
  if p = 0 ∨ σ.Allocated p then .ok () else .error .useAfterFree

/-- The block at `p` is written: memory becomes `mem`. -/
def update (p : ℕ) (mem : Memory) : Except Stop Store :=
  if p = 0 then .error .fault
  else if σ.Allocated p then .ok { σ with mem := mem }
  else .error .useAfterFree

/-- `p[i] = v`. -/
def write (p i : ℕ) (v : UInt8) : Except Stop Store :=
  σ.update p (Function.update σ.mem (add64 p i) v)

/-- `memset(p, v, n)`. -/
def memset (p : ℕ) (v : UInt8) (n : ℕ) : Except Stop Store := σ.update p (fill σ.mem p n v)

/-- `memcpy(src, dest, n)`, which does nothing when one of the pointers is null. -/
def memcpy (src dest n : ℕ) : Store :=
  if dest ≠ 0 ∧ src ≠ 0 then { σ with mem := copy src dest n σ.mem } else σ

/-- `strlen(p)`, which counts the terminator. -/
def strlen (p : ℕ) : Except Stop ℕ :=
  match findZero σ.mem p (2 ^ 47) with
  | some n => .ok (n + 1)
  | none => .error .unterminated

/-- The address is canonical, and not that of a byte of the heap's own. -/
def Readable (x : ℕ) : Prop := (x < 2 ^ 47 ∨ 2 ^ 64 - 2 ^ 47 ≤ x) ∧ σ.Kept x

/-- There is a C string of `n` characters at `p`. -/
structure CString (p n : ℕ) : Prop where
  ne_null : p ≠ 0
  readable : ∀ i ≤ n, σ.Readable (p + i)
  chars : ∀ i < n, σ.mem (p + i) ≠ 0
  terminator : σ.mem (p + n) = 0

/-- The allocated blocks lie in the heap, are not empty and do not overlap. -/
structure Apart : Prop where
  inside : ∀ b ∈ σ.all, heapVirtualBase < b.1 ∧ 0 < b.2 ∧ b.1 + b.2 < 2 ^ 64
  apart : σ.all.Pairwise fun b c => b.1 + b.2 ≤ c.1 ∨ c.1 + c.2 ≤ b.1

variable {σ a} {σ' σ'' : Store} {p q n x : ℕ} {M : Memory} {E : Stop → Prop}

/-! ### Addresses -/

theorem Fresh.not_kept (h : σ.Fresh p n) (hx : p ≤ x ∧ x < p + n) : ¬ σ.Kept x := by
  rintro (hlow | ⟨b, hb, hin⟩)
  · have := h.1
    omega
  · have := h.2.2 b hb
    omega

theorem Fresh.mono {m : ℕ} (h : σ.Fresh p n) (hm : m ≤ n) : σ.Fresh p m := by
  obtain ⟨hlow, hhigh, hblocks⟩ := h
  refine ⟨hlow, by omega, fun b hb => ?_⟩
  have := hblocks b hb
  omega

theorem Fresh.add64 (h : σ.Fresh p n) (hx : x ≤ n) : add64 p x = p + x :=
  add64_of_lt (by have := h.2.1; omega)

theorem kept_congr (h : σ'.all = σ.all) : σ'.Kept x ↔ σ.Kept x := by rw [Kept, Kept, h]

theorem fresh_congr (h : σ'.all = σ.all) : σ'.Fresh p n ↔ σ.Fresh p n := by rw [Fresh, Fresh, h]

theorem mem_without : (q, n) ∈ (σ.without p).blocks ↔ (q, n) ∈ σ.blocks ∧ q ≠ p := by
  rw [without, List.mem_filter, decide_eq_true_iff]

theorem all_without_subset (σ : Store) (p : ℕ) : (σ.without p).all.Sublist σ.all :=
  List.filter_sublist.append (List.Sublist.refl _)

theorem Kept.mono (h : σ.Kept x) (hsub : σ.all ⊆ σ'.all) : σ'.Kept x :=
  h.imp_right fun ⟨b, hb, hin⟩ => ⟨b, hsub hb, hin⟩

theorem Kept.of_without (h : (σ.without p).Kept x) : σ.Kept x :=
  h.mono (all_without_subset σ p).subset

theorem Fresh.without (h : σ.Fresh p n) (q : ℕ) : (σ.without q).Fresh p n :=
  ⟨h.1, h.2.1, fun b hb => h.2.2 b ((all_without_subset σ q).subset hb)⟩

theorem kept_of_mem_blocks (hb : (p, n) ∈ σ.blocks) (hx : x < n) : σ.Kept (p + x) :=
  .inr ⟨(p, n), List.mem_append_left _ hb, Nat.le_add_right p x, by dsimp only; omega⟩

theorem allocated_of_mem (hb : (p, n) ∈ σ.blocks) : σ.Allocated p := List.mem_map_of_mem hb

theorem allocated_without : (σ.without p).Allocated q ↔ σ.Allocated q ∧ q ≠ p := by
  simp only [Allocated, without, List.mem_map, List.mem_filter, decide_eq_true_iff]
  constructor
  · rintro ⟨b, ⟨hb, hne⟩, rfl⟩
    exact ⟨⟨b, hb, rfl⟩, hne⟩
  · rintro ⟨⟨b, hb, rfl⟩, hne⟩
    exact ⟨b, ⟨hb, hne⟩, rfl⟩

namespace Apart

theorem without (h : σ.Apart) (p : ℕ) : (σ.without p).Apart :=
  ⟨fun b hb => h.inside b ((all_without_subset σ p).subset hb),
    h.apart.sublist (all_without_subset σ p)⟩

theorem of_all (h : σ.Apart) (hall : σ'.all = σ.all) : σ'.Apart :=
  ⟨by rw [hall]; exact h.inside, by rw [hall]; exact h.apart⟩

theorem bounds (h : σ.Apart) (hb : (p, n) ∈ σ.blocks) :
    heapVirtualBase < p ∧ 0 < n ∧ p + n < 2 ^ 64 := h.inside (p, n) (List.mem_append_left _ hb)

/-- No block lies at the null pointer. -/
theorem ne_null (h : σ.Apart) (hp : σ.Allocated p) : p ≠ 0 := by
  obtain ⟨b, hb, rfl⟩ := List.mem_map.1 hp
  exact (Nat.zero_lt_of_lt (h.bounds (p := b.1) (n := b.2) hb).1).ne'

theorem without_zero (h : σ.Apart) : σ.without 0 = σ := by
  have hfilter : (σ.blocks.filter fun b => b.1 ≠ 0) = σ.blocks := by
    refine List.filter_eq_self.2 fun b hb => decide_eq_true ?_
    have := (h.bounds (p := b.1) (n := b.2) hb).1
    omega
  rw [Store.without, hfilter]

/-- A block that does not overlap the others joins them. -/
theorem cons (h : σ.Apart) (hn : 0 < n) (hfresh : σ.Fresh p n)
    (hblocks : σ'.blocks = (p, n) :: σ.blocks)
    (hforeign : σ'.foreign = σ.foreign) : σ'.Apart := by
  have hall : σ'.all = (p, n) :: σ.all := by rw [all, hblocks, hforeign]; rfl
  refine ⟨?_, ?_⟩
  · rw [hall, List.forall_mem_cons]
    exact ⟨⟨hfresh.1, hn, hfresh.2.1⟩, h.inside⟩
  · rw [hall, List.pairwise_cons]
    exact ⟨hfresh.2.2, h.apart⟩

end Apart

theorem Readable.lt (hσ : σ.Apart) (h : σ.Readable x) : x < 2 ^ 64 := by
  obtain hlow | ⟨b, hb, hin⟩ := h.2
  · exact hlow.trans (by decide)
  · have := hσ.inside b hb
    omega

theorem lt_of_readable (hσ : σ.Apart) (h : ∀ i ≤ n, σ.Readable (p + i)) : n < 2 ^ 47 := by
  by_contra hlt
  have hlast := (h n le_rfl).lt hσ
  obtain hlow | hhigh := (h 0 (Nat.zero_le n)).1
  · have hhole := (h (2 ^ 47 - p) (by omega)).1
    omega
  · omega

theorem sub64_succ_one (hn : n < 2 ^ 63) : sub64 (n + 1) 1 = n :=
  sub64_of_le (Nat.succ_pos n) (by omega)

theorem CString.strlen (h : σ.CString p n) (hσ : σ.Apart) : σ.strlen p = .ok (n + 1) := by
  have hfind := findZero_eq_some.2 ⟨lt_of_readable hσ h.readable, h.terminator, h.chars⟩
  rw [Store.strlen, hfind]

/-! ### What the calls do -/

/-- Nothing is used or deleted that is not allocated. -/
def Harmless (e : Stop) : Prop := e ≠ .useAfterFree ∧ e ≠ .doubleFree

theorem harmless_refused : Harmless .refused := ⟨by decide, by decide⟩

/-- There is a new block of `n` bytes at `p`, and all bytes outside it are as before that are not
the heap's own. -/
structure Grants (σ : Store) (n : ℕ) (σ' : Store) (p : ℕ) : Prop where
  fresh : σ.Fresh p n
  blocks : σ'.blocks = (p, n) :: σ.blocks
  foreign : σ'.foreign = σ.foreign
  mem : ∀ x, σ.Kept x → σ'.mem x = σ.mem x

theorem roundRequest_succ_ne_zero (hn : n < 2 ^ 63) : Heap.roundRequest (n + 1) ≠ 0 := by
  unfold Heap.roundRequest
  split_ifs
  · rw [add64_of_lt (by omega)]
    omega
  · exact Nat.succ_ne_zero n

theorem new_ends (hn : Heap.roundRequest n ≠ 0) :
    Ends (· = .refused) (fun r => σ.Grants n r.1 r.2 ∧ r.2 = a.address ∧
    ∀ x, ¬ σ.Kept x → r.1.mem x = a.fresh x) (σ.new a n) := by
  unfold new
  rw [if_neg hn]
  split_ifs with hfresh
  · exact ⟨⟨hfresh, rfl, rfl, fun x hx => if_pos hx⟩, rfl, fun x hx => if_neg hx⟩
  · rfl

theorem new_refused (hn : Heap.roundRequest n ≠ 0) (h : ¬ σ.Fresh a.address n) :
    σ.new a n = .error .refused := by
  rw [new, if_neg hn, if_neg h]

theorem new_ok (hn : Heap.roundRequest n ≠ 0) (h : σ.Fresh a.address n) :
    ∃ r, σ.new a n = .ok r ∧ σ.Grants n r.1 r.2 ∧ r.2 = a.address ∧
      ∀ x, ¬ σ.Kept x → r.1.mem x = a.fresh x :=
  ⟨_, (if_neg hn).trans (if_pos h), (new_ends hn).of_ok ((if_neg hn).trans (if_pos h))⟩

/-- What comes after `new` may rely on the block. -/
theorem new_bind {β : Type*} {P : β → Prop} {f : Store × ℕ → Except Stop β}
    (hn : Heap.roundRequest n ≠ 0) (h : ∀ σ₁ p, σ.Grants n σ₁ p → p = a.address →
      (∀ x, ¬ σ.Kept x → σ₁.mem x = a.fresh x) → Ends Harmless P (f (σ₁, p))) :
    Ends Harmless P ((σ.new a n).bind f) := by
  have hends := (@new_ends σ a n hn).imp (fun _ he => he ▸ harmless_refused) fun _ hr => hr
  exact hends.bind fun r hr => h r.1 r.2 hr.1 hr.2.1 hr.2.2

theorem new_null (a : Answer) (hn : Heap.roundRequest n = 0) : σ.new a n = .ok (σ, 0) := if_pos hn

namespace Grants

theorem allocated (h : σ.Grants n σ' p) : σ'.Allocated p :=
  allocated_of_mem (n := n) (by rw [h.blocks]; exact List.mem_cons_self)

theorem pos (h : σ.Grants n σ' p) : 0 < p := Nat.zero_lt_of_lt h.fresh.1

theorem of_update (h : σ.Grants n σ' p) (hM : ∀ x, x < p ∨ p + n ≤ x → M x = σ'.mem x) :
    σ.Grants n { σ' with mem := M } p := by
  refine ⟨h.fresh, h.blocks, h.foreign, fun x hx => (hM x ?_).trans (h.mem x hx)⟩
  by_contra hin
  exact h.fresh.not_kept (by omega) hx

theorem update_ends (h : σ.Grants n σ' p) (hM : ∀ x, x < p ∨ p + n ≤ x → M x = σ'.mem x) :
    Ends E (fun σ'' => σ.Grants n σ'' p ∧ σ''.mem = M) (σ'.update p M) := by
  unfold update
  rw [if_neg h.pos.ne', if_pos h.allocated]
  exact ⟨h.of_update hM, rfl⟩

theorem write_ends {i : ℕ} {v : UInt8} (h : σ.Grants n σ' p) (hi : i < n) :
    Ends E (fun σ'' => σ.Grants n σ'' p ∧ σ''.mem = Function.update σ'.mem (p + i) v)
      (σ'.write p i v) := by
  unfold write
  rw [h.fresh.add64 hi.le]
  exact h.update_ends fun x hx => Function.update_of_ne (by omega) _ _

theorem memcpy (h : σ.Grants n σ' p) (src : ℕ) {i m : ℕ} (hi : i + m ≤ n) :
    σ.Grants n (σ'.memcpy src (p + i) m) p := by
  unfold Store.memcpy
  split_ifs
  · exact h.of_update fun x hx => copy_of_notMem (by omega)
  · exact h

/-- What is copied into the new block from bytes that are not the heap's own. -/
theorem memcpy_mem {src i m j : ℕ} (h : σ.Grants n σ' p) (hi : i + m ≤ n) (hsrc : src ≠ 0)
    (hkept : ∀ j < m, σ.Kept (src + j)) (hj : j < m) :
    (σ'.memcpy src (p + i) m).mem (p + i + j) = σ.mem (src + j) := by
  have hapart : src + m ≤ p + i ∨ p + i + m ≤ src := by
    by_contra hover
    -- the first byte that both regions have in common
    have hfirst := hkept (max src (p + i) - src) (by omega)
    exact h.fresh.not_kept (by omega) hfirst
  have hpos := h.pos
  unfold Store.memcpy
  rw [if_pos ⟨by omega, hsrc⟩]
  exact (copy_of_mem hapart hj).trans (h.mem _ (hkept j hj))

theorem allocated_of (h : σ.Grants n σ' p) (hq : σ.Allocated q) : σ'.Allocated q := by
  unfold Allocated at hq ⊢
  rw [h.blocks]
  exact List.mem_cons_of_mem _ hq

end Grants

theorem Fresh.ne (h : σ.Fresh p n) (hσ : σ.Apart) (hn : 0 < n) (hq : σ.Allocated q) : p ≠ q := by
  obtain ⟨b, hb, rfl⟩ := List.mem_map.1 hq
  have hbounds := hσ.bounds (p := b.1) (n := b.2) hb
  have := h.2.2 b (List.mem_append_left _ hb)
  omega

/-- What comes after a string has been copied to the head of a new block, and its terminator
written, may rely on both. -/
theorem Grants.terminate_bind {β : Type*} {P : β → Prop} {f : Store → Except Stop β} {src : ℕ}
    (h : σ.Grants (n + 1) σ' p) (hsrc : 0 < n → src ≠ 0) (hkept : ∀ j < n, σ.Kept (src + j))
    (hf : ∀ σ'', σ.Grants (n + 1) σ'' p → σ''.mem (p + n) = 0 →
      bytes σ''.mem p n = bytes σ.mem src n → Ends E P (f σ'')) :
    Ends E P (((σ'.memcpy src p n).write p n 0).bind f) := by
  have hcopied := h.memcpy src (i := 0) (m := n) (by omega)
  refine (hcopied.write_ends (Nat.lt_succ_self n)).bind fun σ'' ⟨hg, hmem⟩ => ?_
  refine hf σ'' hg ?_ (bytes_congr fun j hj => ?_)
  · rw [hmem, Function.update_self]
  · rw [hmem, Function.update_of_ne (by omega)]
    exact h.memcpy_mem (i := 0) (by omega) (hsrc (by omega)) hkept hj

/-- What comes after `strlen` may rely on its result. -/
theorem strlen_bind {β : Type*} {P : β → Prop} {f : ℕ → Except Stop β}
    (h : ∀ n < 2 ^ 47, σ.mem (p + n) = 0 → (∀ i < n, σ.mem (p + i) ≠ 0) →
    Ends Harmless P (f (n + 1))) :
    Ends Harmless P ((σ.strlen p).bind f) := by
  unfold strlen
  cases hfind : findZero σ.mem p (2 ^ 47) with
  | none => exact ⟨by decide, by decide⟩
  | some n =>
    obtain ⟨hlt, hzero, hchars⟩ := findZero_eq_some.1 hfind
    exact h n hlt hzero hchars

theorem memcpy_mem_of_notMem {src dest : ℕ} (hx : x < dest ∨ dest + n ≤ x) :
    (σ.memcpy src dest n).mem x = σ.mem x := by
  unfold memcpy
  split_ifs
  · exact copy_of_notMem hx
  · rfl

theorem touch_ends (h : p = 0 ∨ σ.Allocated p) : Ends E (fun _ => True) (σ.touch p) := by
  unfold touch
  rw [if_pos h]
  trivial

/-- The block at `p` is gone, and all bytes are as before that are not the heap's own. -/
structure Releases (σ : Store) (p : ℕ) (σ' : Store) : Prop where
  blocks : σ'.blocks = (σ.without p).blocks
  foreign : σ'.foreign = σ.foreign
  mem : ∀ x, (σ.without p).Kept x → σ'.mem x = σ.mem x

theorem Releases.all_eq (h : σ.Releases p σ') : σ'.all = (σ.without p).all := by
  rw [all, h.blocks, h.foreign]
  rfl

theorem Releases.allocated_iff (h : σ.Releases p σ') : σ'.Allocated q ↔ σ.Allocated q ∧ q ≠ p := by
  rw [← allocated_without, Allocated, h.blocks]
  rfl

theorem Releases.apart (h : σ.Releases p σ') (hσ : σ.Apart) : σ'.Apart :=
  (hσ.without p).of_all h.all_eq

theorem delete_ends (hσ : σ.Apart) (h : p = 0 ∨ σ.Allocated p) :
    Ends E (σ.Releases p) (σ.delete a p) := by
  unfold delete
  split_ifs with h0 halloc
  · refine ⟨?_, rfl, fun _ _ => rfl⟩
    rw [h0, hσ.without_zero]
  · exact ⟨rfl, rfl, fun x hx => if_pos hx⟩
  · exact absurd h (by simp [h0, halloc])

end Store

end Eterna
