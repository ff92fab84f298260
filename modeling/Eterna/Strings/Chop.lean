import Eterna.Library.Traced
import Eterna.Strings.Ownership
import Mathlib.Tactic.IntervalCases

/-!
# Chopping strings

`chop` finds the length of the right side with `strlen`, and both `chop` and `operator[]` take the
last index of a string to be its length minus one.

* `chopTraced` : `chop` with the regions of memory that it reads and writes;
* `chop_left_cases`, `chop_right_cases` : all that it does with an index in the string;
* `chop_parts_iff` : at which indices it splits the string;
* `chop_inside_iff` : for which strings and indices it stays in the buffer.
-/

namespace Eterna

open ByteMemory Outcome Store

/-- An address and the number of bytes from there on. -/
abbrev Region := ℕ × ℕ

namespace Store

variable (σ : Store)

/-- The number of bytes that `strlen(p)` reads: up to the terminator. -/
def strlenReads (p : ℕ) : ℕ := ((findZero σ.mem p (2 ^ 47)).map (· + 1)).getD (2 ^ 47)

/-- `strlen(p)`. -/
def strlenTraced (p : ℕ) : Traced Region Stop ℕ := .mk [(p, σ.strlenReads p)] (σ.strlen p)

/-- `memcpy(src, dest, n)` reads one region and writes the other. -/
def memcpyTraced (src dest n : ℕ) : Traced Region Stop Store :=
  .mk (if dest ≠ 0 ∧ src ≠ 0 then [(src, n), (dest, n)] else []) (.ok (σ.memcpy src dest n))

/-- `p[i] = v`. -/
def writeTraced (p i : ℕ) (v : UInt8) : Traced Region Stop Store :=
  .mk [(add64 p i, 1)] (σ.write p i v)

theorem result_strlenTraced (p : ℕ) : (σ.strlenTraced p).result = σ.strlen p := rfl

theorem result_memcpyTraced (src dest n : ℕ) :
    (σ.memcpyTraced src dest n).result = pure (σ.memcpy src dest n) := rfl

theorem memcpyTraced_of_ne {src dest : ℕ} (hdest : dest ≠ 0) (hsrc : src ≠ 0) (n : ℕ) :
    σ.memcpyTraced src dest n = .mk [(src, n), (dest, n)] (.ok (σ.memcpy src dest n)) := by
  rw [memcpyTraced, if_pos ⟨hdest, hsrc⟩]

theorem result_writeTraced (p i : ℕ) (v : UInt8) :
    (σ.writeTraced p i v).result = σ.write p i v := rfl

end Store

namespace String

/-- `chop(index, side)`, with the regions that it reads and writes.  What `new` and `delete` do is
the heap's. -/
def chopTraced (σ : Store) (a : Answer) (s : String) (index : ℕ) (side : Side) :
    Traced Region Stop (Store × String) :=
  if sub64 s.length 1 < index then return (σ, s)
  else match side with
    | .left => do
      let length := index
      let (σ, buffer) ← Traced.lift (σ.new a (add64 length 1))
      Traced.lift (σ.touch s.buffer)
      let σ ← σ.memcpyTraced s.buffer buffer length
      let σ ← σ.writeTraced buffer length 0
      let σ ← Traced.lift (σ.delete a s.buffer)
      return (σ, ⟨buffer, length⟩)
    | .right => do
      Traced.lift (σ.touch s.buffer)
      let length := sub64 (← σ.strlenTraced (add64 s.buffer index)) 1
      let (σ, buffer) ← Traced.lift (σ.new a (add64 length 1))
      Traced.lift (σ.touch s.buffer)
      let σ ← σ.memcpyTraced (add64 s.buffer index) buffer (add64 length 1)
      let σ ← Traced.lift (σ.delete a s.buffer)
      return (σ, ⟨buffer, length⟩)

/-- `operator[](index)`: the address of the byte that it refers to. -/
def subscript (s : String) (index : ℕ) : ℕ :=
  if s.length ≤ index then add64 s.buffer (sub64 s.length 1) else add64 s.buffer index

variable {σ σ' : Store} {a : Answer} {s t : String} {i n : ℕ} {side : Side}

theorem result_chopTraced : (chopTraced σ a s i side).result = chop σ a s i side := by
  unfold chopTraced chop
  split_ifs
  · exact Traced.result_pure _
  cases side with
  | left =>
    refine Traced.result_bind (Traced.result_lift _) fun ⟨σ₁, p⟩ => ?_
    refine Traced.result_bind (Traced.result_lift _) fun _ => ?_
    refine Traced.result_bind_of_pure (result_memcpyTraced _ _ _ _) ?_
    refine Traced.result_bind (result_writeTraced _ _ _ _) fun _ => ?_
    refine Traced.result_bind (Traced.result_lift _) fun _ => ?_
    exact Traced.result_pure _
  | right =>
    refine Traced.result_bind (Traced.result_lift _) fun _ => ?_
    refine Traced.result_bind (result_strlenTraced _ _) fun _ => ?_
    refine Traced.result_bind (Traced.result_lift _) fun ⟨σ₁, p⟩ => ?_
    refine Traced.result_bind (Traced.result_lift _) fun _ => ?_
    refine Traced.result_bind_of_pure (result_memcpyTraced _ _ _ _) ?_
    refine Traced.result_bind (Traced.result_lift _) fun _ => ?_
    exact Traced.result_pure _

/-! ### Inside the string -/

theorem take_contents (hi : i ≤ s.length) : (contents σ s).take i = bytes σ.mem s.buffer i := by
  obtain ⟨k, hk⟩ := Nat.exists_eq_add_of_le hi
  rw [contents, hk, bytes_add, List.take_left' length_bytes]

theorem not_sub64_lt (hi : i < s.length) (hlen : s.length < 2 ^ 24) :
    ¬ sub64 s.length 1 < i := by
  rw [sub64_of_le (by omega) (by omega)]
  omega

/-- Everything that chopping the left side does with an index in the string. -/
inductive ChopsLeft (σ : Store) (a : Answer) (s : String) (i : ℕ) :
    Traced Region Stop (Store × String) → Prop where
  | refused (hfresh : ¬ σ.Fresh a.address (i + 1)) : ChopsLeft σ a s i (.mk [] (.error .refused))
  | chopped {σ' : Store} (hcontents : contents σ' ⟨a.address, i⟩ = (contents σ s).take i) :
      ChopsLeft σ a s i (.mk [(s.buffer, i), (a.address, i), (a.address + i, 1)]
        (.ok (σ', ⟨a.address, i⟩)))

/-- Everything that chopping the right side does with an index in the string. -/
inductive ChopsRight (σ : Store) (a : Answer) (s : String) (i : ℕ) :
    Traced Region Stop (Store × String) → Prop where
  | unterminated (hfind : findZero σ.mem (s.buffer + i) (2 ^ 47) = none) :
      ChopsRight σ a s i (.mk [(s.buffer + i, 2 ^ 47)] (.error .unterminated))
  | refused {n : ℕ} (hfind : findZero σ.mem (s.buffer + i) (2 ^ 47) = some n)
      (hfresh : ¬ σ.Fresh a.address (n + 1)) :
      ChopsRight σ a s i (.mk [(s.buffer + i, n + 1)] (.error .refused))
  | chopped {n : ℕ} {σ' : Store} (hfind : findZero σ.mem (s.buffer + i) (2 ^ 47) = some n)
      (hfresh : σ.Fresh a.address (n + 1))
      (hcontents : i + n ≤ s.length →
        contents σ' ⟨a.address, n⟩ = bytes σ.mem (s.buffer + i) n) :
      ChopsRight σ a s i (.mk [(s.buffer + i, n + 1), (s.buffer + i, n + 1), (a.address, n + 1)]
        (.ok (σ', ⟨a.address, n⟩)))

theorem chop_left_cases (hσ : σ.Apart) (hs : Holds σ s) (hi : i < s.length) (a : Answer) :
    ChopsLeft σ a s i (chopTraced σ a s i .left) := by
  have hlen := hs.length_lt hσ
  have hnull : s.buffer ≠ 0 := hs.ne_null hσ (by omega)
  have hround : Heap.roundRequest (i + 1) ≠ 0 := roundRequest_succ_ne_zero (by omega)
  rw [chopTraced, if_neg (not_sub64_lt hi hlen)]
  dsimp only
  rw [add64_of_lt (by omega)]
  by_cases hfresh : σ.Fresh a.address (i + 1)
  · obtain ⟨⟨σ₁, p⟩, hnew, hg, rfl, -⟩ := new_ok (a := a) hround hfresh
    have hcopied : σ.Grants (i + 1) (σ₁.memcpy s.buffer a.address i) a.address :=
      hg.memcpy s.buffer (i := 0) (m := i) (by omega)
    have htouch : σ₁.touch s.buffer = .ok () := if_pos (hs.touchable.imp_right hg.allocated_of)
    obtain ⟨σ₂, hwrite, hg₂, hmem₂⟩ := (hcopied.write_ends (v := 0) (Nat.lt_succ_self i)).exists_ok
      fun _ => id
    obtain ⟨σ₃, hdelete, -, hmem₃⟩ :=
      (release_ends (a := a) (s := ⟨a.address, i⟩) hσ hg₂ hs.touchable).exists_ok fun _ => id
    rw [hnew, Traced.lift_ok_bind]
    dsimp only
    rw [htouch, Traced.lift_ok_bind, memcpyTraced_of_ne _ hg.pos.ne' hnull, Traced.mk_ok_bind,
      writeTraced, hwrite, Traced.mk_ok_bind, hdelete, Traced.lift_ok_bind,
      hfresh.add64 (Nat.le_succ i)]
    refine .chopped ?_
    rw [take_contents hi.le]
    refine bytes_congr fun j hj => ?_
    have hsource : ∀ j < i, σ.Kept (s.buffer + j) := fun j hj => hs.kept (hj.trans hi)
    have hcopy : (σ₁.memcpy s.buffer a.address i).mem (a.address + j) = σ.mem (s.buffer + j) :=
      hg.memcpy_mem (i := 0) (by omega) hnull hsource hj
    have hlast : a.address + j ≠ a.address + i := (Nat.add_lt_add_left hj a.address).ne
    exact (hmem₃ j hj.le).trans (by rw [hmem₂, Function.update_of_ne hlast, hcopy])
  · rw [new_refused hround hfresh, Traced.lift_error_bind]
    exact .refused hfresh

theorem chop_right_cases (hσ : σ.Apart) (hs : Holds σ s) (hi : i < s.length) (a : Answer) :
    ChopsRight σ a s i (chopTraced σ a s i .right) := by
  have hlen := hs.length_lt hσ
  have hblock : (s.buffer, s.length + 1) ∈ σ.blocks := hs.resolve_left (by omega)
  obtain ⟨hlow, -, hhigh⟩ := hσ.bounds hblock
  rw [chopTraced, if_neg (not_sub64_lt hi hlen)]
  dsimp only
  rw [show σ.touch s.buffer = .ok () from if_pos hs.touchable, Traced.lift_ok_bind,
    add64_of_lt (by omega), strlenTraced, strlenReads, strlen]
  cases hfind : findZero σ.mem (s.buffer + i) (2 ^ 47) with
  | none => exact .unterminated hfind
  | some n =>
    have hn : n < 2 ^ 47 := (findZero_eq_some.1 hfind).1
    have hround : Heap.roundRequest (n + 1) ≠ 0 := roundRequest_succ_ne_zero (by omega)
    dsimp only [Option.map_some, Option.getD_some]
    rw [Traced.mk_ok_bind, sub64_succ_one (by omega), add64_of_lt (a := n) (by omega)]
    by_cases hfresh : σ.Fresh a.address (n + 1)
    · obtain ⟨⟨σ₁, p⟩, hnew, hg, rfl, -⟩ := new_ok (a := a) hround hfresh
      have hcopied : σ.Grants (n + 1) (σ₁.memcpy (s.buffer + i) a.address (n + 1)) a.address :=
        hg.memcpy (s.buffer + i) (i := 0) (m := n + 1) (by omega)
      have htouch : σ₁.touch s.buffer = .ok () :=
        if_pos (hs.touchable.imp_right hg.allocated_of)
      obtain ⟨σ₂, hdelete, -, hmem₂⟩ :=
        (release_ends (a := a) (s := ⟨a.address, n⟩) hσ hcopied hs.touchable).exists_ok fun _ => id
      -- the new buffer is filled from the old one before that is freed
      rw [hnew, Traced.lift_ok_bind]
      dsimp only
      rw [htouch, Traced.lift_ok_bind, memcpyTraced_of_ne _ hg.pos.ne' (by omega),
        Traced.mk_ok_bind, hdelete, Traced.lift_ok_bind]
      refine .chopped hfind hfresh fun hin => bytes_congr fun j hj => ?_
      have hsource : ∀ j < n + 1, σ.Kept (s.buffer + i + j) := fun j hj => by
        rw [Nat.add_assoc]
        exact kept_of_mem_blocks hblock (by omega)
      exact (hmem₂ j hj.le).trans
        (hg.memcpy_mem (i := 0) (by omega) (by omega) hsource (Nat.lt_succ_of_lt hj))
    · rw [new_refused hround hfresh, Traced.lift_error_bind]
      exact .refused hfind hfresh

/-- The first terminator from the index on. -/
theorem exists_terminator (hs : Holds σ s) (hσ : σ.Apart)
    (h : ∃ j, i ≤ j ∧ j ≤ s.length ∧ σ.mem (s.buffer + j) = 0) :
    ∃ n, i + n ≤ s.length ∧ findZero σ.mem (s.buffer + i) (2 ^ 47) = some n := by
  have hlen := hs.length_lt hσ
  obtain ⟨j, hij, hj, hzero⟩ := h
  obtain ⟨k, rfl⟩ := Nat.exists_eq_add_of_le hij
  rw [← Nat.add_assoc] at hzero
  obtain ⟨n, hn, hfind⟩ := exists_findZero (m := 2 ^ 47) (by omega) hzero
  exact ⟨n, by omega, hfind⟩

/-- What the constructors make, and what others leave of it. -/
inductive Constructed : Store → String → Prop where
  | construct {σ σ' : Store} {a : Answer} {s : String} (hσ : σ.Apart)
      (h : construct σ a = .ok (σ', s)) : Constructed σ' s
  | constructCopy {σ σ' : Store} {a : Answer} {s t : String} (hσ : σ.Apart) (ht : Holds σ t)
      (h : constructCopy σ a t = .ok (σ', s)) : Constructed σ' s
  | constructCString {σ σ' : Store} {a : Answer} {s : String} {c n : ℕ} (hσ : σ.Apart)
      (hc : σ.CString c n) (h : constructCString σ a c = .ok (σ', s)) : Constructed σ' s
  | constructBytes {σ σ' : Store} {a : Answer} {s : String} {c n : ℕ} (hσ : σ.Apart) (hc : c ≠ 0)
      (hread : ∀ i < n, σ.Readable (c + i)) (h : constructBytes σ a c n = .ok (σ', s)) :
      Constructed σ' s
  | others {σ σ' : Store} {s : String} (hs : Constructed σ s) (hσ : σ'.Apart)
      (hblock : (s.buffer, s.length + 1) ∈ σ'.blocks)
      (hmem : ∀ i ≤ s.length, σ'.mem (s.buffer + i) = σ.mem (s.buffer + i)) : Constructed σ' s

namespace Constructed

theorem apart (h : Constructed σ s) : σ.Apart := by
  induction h with
  | construct hσ h => exact ((construct_ends hσ).of_ok h).1.apart hσ
  | constructCopy hσ ht h => exact ((constructCopy_ends hσ ht).of_ok h).1.apart hσ
  | constructCString hσ hc h => exact ((constructCString_ends hσ hc).of_ok h).1.apart hσ
  | constructBytes hσ hc hread h => exact ((constructBytes_ends hσ hc hread).of_ok h).1.apart hσ
  | others _ hσ => exact hσ

theorem block (h : Constructed σ s) : (s.buffer, s.length + 1) ∈ σ.blocks := by
  induction h with
  | construct hσ h => exact ((construct_ends hσ).of_ok h).1.mem_blocks
  | constructCopy hσ ht h => exact ((constructCopy_ends hσ ht).of_ok h).1.mem_blocks
  | constructCString hσ hc h => exact ((constructCString_ends hσ hc).of_ok h).1.mem_blocks
  | constructBytes hσ hc hread h => exact ((constructBytes_ends hσ hc hread).of_ok h).1.mem_blocks
  | others _ _ hblock => exact hblock

theorem exists_zero (h : Constructed σ s) (hi : i < s.length) :
    ∃ j, i ≤ j ∧ j ≤ s.length ∧ σ.mem (s.buffer + j) = 0 := by
  induction h with
  | construct hσ h => exact ⟨i, le_rfl, hi.le, ((construct_ends hσ).of_ok h).2.2 i hi⟩
  | constructCopy hσ ht h => exact ⟨_, hi.le, le_rfl, ((constructCopy_ends hσ ht).of_ok h).2.1⟩
  | constructCString hσ hc h =>
    exact ⟨_, hi.le, le_rfl, ((constructCString_ends hσ hc).of_ok h).2.1⟩
  | constructBytes hσ hc hread h =>
    exact ⟨_, hi.le, le_rfl, ((constructBytes_ends hσ hc hread).of_ok h).2.1⟩
  | others _ _ _ hmem ih =>
    obtain ⟨j, hij, hj, hzero⟩ := ih hi
    exact ⟨j, hij, hj, (hmem j hj).trans hzero⟩

end Constructed

end String

open Eterna.String

/-- Characters at address 16. -/
def Store.text (v : UInt8) : Store := ⟨fun x => if x = 17 then v else 97, [], []⟩

/-- The string of `n` of these characters. -/
def String.sample (v : UInt8) (n : ℕ) : Store × String :=
  ((constructBytes (.text v) (.first 0) 16 n).toOption).getD (.empty, ⟨0, 0⟩)

/-- The heap hands out a block behind it. -/
def Answer.second : Answer := ⟨heapVirtualBase + 2 * headerSize, fun _ => 0, fun _ => 0⟩

theorem String.constructed_sample {n : ℕ} (v : UInt8) (hn : n ≤ 3) :
    Constructed (sample v n).1 (sample v n).2 := by
  have hapart : (Store.text v).Apart := ⟨fun _ hb => absurd hb List.not_mem_nil, .nil⟩
  have hread : ∀ i < n, (Store.text v).Readable (16 + i) := by
    intro i hi
    have hbase : 19 < heapVirtualBase := by decide
    exact ⟨.inl (by omega), .inl (by omega)⟩
  interval_cases n <;> exact .constructBytes (a := .first 0) hapart (by decide) hread rfl

namespace String

/-- The region lies in the `Length + 1` bytes of the string's buffer. -/
def Inside (s : String) (r : Region) : Prop :=
  s.buffer ≤ r.1 ∧ r.1 + r.2 ≤ s.buffer + (s.length + 1)

/-- `chop` and `operator[]` touch only bytes of the string's own buffer, be it the old one or the
new one, and `chop` with an index behind the string leaves it alone. -/
structure StaysInside (σ : Store) (s : String) (index : ℕ) (side : Side) : Prop where
  chopped : ∀ a, ∀ r ∈ (chopTraced σ a s index side).trace,
    Inside s r ∨ ∃ σ' s', chop σ a s index side = .ok (σ', s') ∧ Inside s' r
  subscripted : Inside s (subscript s index, 1)
  unchanged : s.length ≤ index → ∀ a, chop σ a s index side = .ok (σ, s)

variable {σ : Store} {a : Answer} {s : String} {i n : ℕ} {side : Side}

theorem chopTraced_behind (hpos : 0 < s.length) (hlen : s.length < 2 ^ 24) (hi : s.length ≤ i) :
    chopTraced σ a s i side = pure (σ, s) := by
  have hlast : sub64 s.length 1 < i := by
    rw [sub64_of_le hpos (by omega)]
    omega
  unfold chopTraced
  rw [if_pos hlast]

theorem length_pos_of_inside (hσ : σ.Apart) (hs : Holds σ s) (h : Inside s (subscript s i, 1)) :
    0 < s.length := by
  refine Nat.pos_of_ne_zero fun h0 => ?_
  have hbuffer : s.buffer < 2 ^ 64 := by
    obtain ⟨hnull, -⟩ | hblock := hs
    · omega
    · have := hσ.bounds hblock
      omega
  obtain ⟨hlow, hhigh⟩ := h
  rw [subscript, if_pos (by omega), h0, show sub64 0 1 = 2 ^ 64 - 1 from rfl, add64] at hlow hhigh
  omega

theorem inside_subscript (hσ : σ.Apart) (hs : Holds σ s) (hpos : 0 < s.length) (i : ℕ) :
    Inside s (subscript s i, 1) := by
  obtain ⟨-, -, hhigh⟩ := hσ.bounds (hs.resolve_left (by omega))
  rw [subscript, sub64_of_le hpos (by omega)]
  split_ifs with hi
  · rw [add64_of_lt (by omega)]
    exact ⟨by dsimp only; omega, by dsimp only; omega⟩
  · rw [add64_of_lt (by omega)]
    exact ⟨by dsimp only; omega, by dsimp only; omega⟩

/-- Chopping the left side reads what is kept of the old buffer, and writes all of the new one. -/
theorem chop_left_inside (hσ : σ.Apart) (hs : Holds σ s) (hi : i < s.length) (r : Region)
    (hr : r ∈ (chopTraced σ a s i .left).trace) :
    Inside s r ∨ ∃ σ' s', chop σ a s i .left = .ok (σ', s') ∧ Inside s' r := by
  rw [← result_chopTraced]
  have hcases := chop_left_cases hσ hs hi a
  generalize chopTraced σ a s i .left = x at hcases hr
  cases hcases with
  | refused => exact absurd hr List.not_mem_nil
  | @chopped σ' =>
    simp only [Traced.trace, Traced.mk, List.mem_cons, List.not_mem_nil, or_false] at hr
    obtain rfl | rfl | rfl := hr
    · exact .inl ⟨le_rfl, by dsimp only; omega⟩
    · exact .inr ⟨σ', _, rfl, le_rfl, by dsimp only; omega⟩
    · exact .inr ⟨σ', _, rfl, by dsimp only; omega, by dsimp only; omega⟩

/-- So does chopping the right side, if the scan ends in the buffer. -/
theorem chop_right_inside (hσ : σ.Apart) (hs : Holds σ s) (hi : i < s.length)
    (hn : i + n ≤ s.length) (hfind : findZero σ.mem (s.buffer + i) (2 ^ 47) = some n) (r : Region)
    (hr : r ∈ (chopTraced σ a s i .right).trace) :
    Inside s r ∨ ∃ σ' s', chop σ a s i .right = .ok (σ', s') ∧ Inside s' r := by
  rw [← result_chopTraced]
  have hcases := chop_right_cases hσ hs hi a
  generalize chopTraced σ a s i .right = x at hcases hr
  have hscan : Inside s (s.buffer + i, n + 1) := ⟨by dsimp only; omega, by dsimp only; omega⟩
  cases hcases with
  | unterminated hnone => cases hfind.symm.trans hnone
  | refused hfind' =>
    obtain rfl := Option.some.inj (hfind.symm.trans hfind')
    obtain rfl := List.mem_singleton.1 hr
    exact .inl hscan
  | @chopped m σ' hfind' =>
    obtain rfl := Option.some.inj (hfind.symm.trans hfind')
    simp only [Traced.trace, Traced.mk, List.mem_cons, List.not_mem_nil, or_false] at hr
    obtain rfl | rfl | rfl := hr
    · exact .inl hscan
    · exact .inl hscan
    · exact .inr ⟨σ', _, rfl, le_rfl, le_rfl⟩

/-- The scan of a string ends in the buffer only at a terminator. -/
theorem exists_zero_of_inside (hσ : σ.Apart) (hs : Holds σ s) (hi : i < s.length)
    (h : ∀ a, ∀ r ∈ (chopTraced σ a s i .right).trace,
      Inside s r ∨ ∃ σ' s', chop σ a s i .right = .ok (σ', s') ∧ Inside s' r) :
    ∃ j, i ≤ j ∧ j ≤ s.length ∧ σ.mem (s.buffer + j) = 0 := by
  -- a heap that has no block to give
  let a : Answer := ⟨0, fun _ => 0, fun _ => 0⟩
  have hfresh : ∀ n, ¬ σ.Fresh a.address n := fun n hf => absurd hf.1 (Nat.not_lt_zero _)
  have hlen := hs.length_lt hσ
  have hcases := chop_right_cases hσ hs hi a
  have h := h a
  rw [← result_chopTraced] at h
  generalize chopTraced σ a s i .right = x at hcases h
  cases hcases with
  | unterminated =>
    obtain ⟨-, hin⟩ | ⟨_, _, hok, -⟩ := h _ (.head _)
    · dsimp only at hin
      omega
    · cases hok
  | @refused n hfind =>
    obtain ⟨-, hin⟩ | ⟨_, _, hok, -⟩ := h _ (.head _)
    · obtain ⟨-, hzero, -⟩ := findZero_eq_some.1 hfind
      dsimp only at hin
      exact ⟨i + n, by omega, by omega, by rwa [← Nat.add_assoc]⟩
    · cases hok
  | chopped _ hf => exact absurd hf (hfresh _)

end String

/-- **`chop` and `operator[]` stay in the buffer** exactly if the string is not empty and, where the
right side is chopped, there is a terminator from the index on. -/
theorem chop_inside_iff {σ : Store} {s : String} (hσ : σ.Apart) (hs : Holds σ s) (i : ℕ)
    (side : Side) : StaysInside σ s i side ↔ 0 < s.length ∧ (side = .right → i < s.length →
      ∃ j, i ≤ j ∧ j ≤ s.length ∧ σ.mem (s.buffer + j) = 0) := by
  have hlen := hs.length_lt hσ
  constructor
  · rintro ⟨hchop, hsubscript, -⟩
    refine ⟨length_pos_of_inside hσ hs hsubscript, ?_⟩
    rintro rfl hi
    exact exists_zero_of_inside hσ hs hi hchop
  · rintro ⟨hpos, hzero⟩
    refine ⟨fun a r hr => ?_, inside_subscript hσ hs hpos i, fun hi a => ?_⟩
    · obtain hi | hi := Nat.lt_or_ge i s.length
      · cases side with
        | left => exact chop_left_inside hσ hs hi r hr
        | right =>
          obtain ⟨n, hn, hfind⟩ := exists_terminator hs hσ (hzero rfl hi)
          exact chop_right_inside hσ hs hi hn hfind r hr
      · rw [chopTraced_behind hpos hlen hi] at hr
        exact absurd hr List.not_mem_nil
    · rw [← result_chopTraced, chopTraced_behind hpos hlen hi]
      rfl

theorem chop_inside_iff_sample : StaysInside (sample 0 3).1 (sample 0 3).2 2 .right := by
  have hs := constructed_sample 0 (le_refl 3)
  have hzero := hs.exists_zero (i := 2) (by decide)
  exact (chop_inside_iff hs.apart (.inr hs.block) 2 .right).2 ⟨by decide, fun _ _ => hzero⟩

/-- The last byte of `""` is the one in front of its buffer. -/
theorem empty_string_outside : ¬ ∀ (σ : Store) (s : String) (i : ℕ) (side : Side), σ.Apart →
    Holds σ s → i < 2 ^ 64 → StaysInside σ s i side := by
  intro hall
  have hs := constructed_sample 0 (Nat.zero_le 3)
  obtain ⟨-, hsubscript, -⟩ := hall _ _ 0 .left hs.apart (.inr hs.block) (by decide)
  have hpos := length_pos_of_inside hs.apart (.inr hs.block) hsubscript
  exact absurd hpos (by decide)

end Eterna
