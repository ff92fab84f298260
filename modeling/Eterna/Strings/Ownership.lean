import Eterna.Library.Runs
import Eterna.Strings.Basic

/-!
# Who owns the buffers

A population of `String` objects, the copies that `data_copy` has handed out, and other code that
uses the same heap.

* `World.Effect`, `exec_ends` : everything an operation can do to the population, and that it uses
  and deletes nothing that is not allocated;
* `World.Owned` : the invariant of the runs;
* `strings_own_buffers` : in every run, the blocks of the operations are exactly the buffers of the
  live objects and the copies, and no two objects share one.
-/

namespace Eterna

open ByteMemory Outcome Runs Store Eterna.String

/-- The live `String` objects, by address, and the copies that `data_copy` has handed out. -/
structure World where
  store : Store
  strings : ℕ → Option String
  copies : List ℕ

/-- The three ways to append a `String`. -/
inductive AppendString where
  | plus
  | plusAssign
  | shiftLeft

/-- The two ways to append a C string.  `operator<<` has none: the C string is made into a temporary
`String` first. -/
inductive AppendCString where
  | plus
  | plusAssign

/-- The function that is called. -/
def AppendString.run : AppendString → Store → Answer → ℕ → String → ℕ → String →
    Except Stop (Store × String)
  | .plus => String.plus
  | .plusAssign => String.plusAssign
  | .shiftLeft => String.shiftLeft

/-- The function that is called. -/
def AppendCString.run : AppendCString → Store → Answer → String → ℕ → Except Stop (Store × String)
  | .plus => String.plusCString
  | .plusAssign => String.plusAssignCString

/-- What happens to the population.  Objects are given by their addresses. -/
inductive StringOp where
  | construct (x : ℕ)
  | constructCopy (x y : ℕ)
  | constructCString (x cstr : ℕ)
  | constructBytes (x cstr byteCount : ℕ)
  | destroy (x : ℕ)
  | chop (x index : ℕ) (side : Side)
  | dataCopy (x : ℕ)
  /-- The caller of `data_copy` frees its copy. -/
  | freeCopy (p : ℕ)
  | assign (x y : ℕ)
  | moveAssign (x y : ℕ)
  | append (how : AppendString) (x y : ℕ)
  | appendCString (how : AppendCString) (x cstr : ℕ)
  /-- Other code leaves this store. -/
  | others (σ : Store)

namespace World

/-- The start of a run: there are no objects yet. -/
def start (σ : Store) : World := ⟨σ, fun _ => none, []⟩

variable (w : World)

/-- The object at `x` has become `s`. -/
def put (x : ℕ) (σ : Store) (s : Option String) : World :=
  { w with store := σ, strings := Function.update w.strings x s }

/-- The object at `x`. -/
def get (x : ℕ) : Except Stop String :=
  match w.strings x with
  | some s => .ok s
  | none => .error .refused

/-- What an operation does, when the heap answers `a`. -/
def exec (a : Answer) : StringOp → Except Stop World
  | .construct x => do
    let r ← String.construct w.store a
    return w.put x r.1 r.2
  | .constructCopy x y => do
    let r ← String.constructCopy w.store a (← w.get y)
    return w.put x r.1 r.2
  | .constructCString x cstr => do
    let r ← String.constructCString w.store a cstr
    return w.put x r.1 r.2
  | .constructBytes x cstr byteCount => do
    let r ← String.constructBytes w.store a cstr byteCount
    return w.put x r.1 r.2
  | .destroy x => do
    let σ ← String.destroy w.store a (← w.get x)
    return w.put x σ none
  | .chop x index side => do
    let r ← String.chop w.store a (← w.get x) index side
    return w.put x r.1 r.2
  | .dataCopy x => do
    let r ← String.dataCopy w.store a (← w.get x)
    return { w with store := r.1, copies := r.2 :: w.copies }
  | .freeCopy p => do
    let σ ← w.store.delete a p
    return { w with store := σ, copies := w.copies.filter (· ≠ p) }
  | .assign x y => do
    let r ← String.assign w.store a x (← w.get x) y (← w.get y)
    return w.put x r.1 r.2
  | .moveAssign x y => do
    let r ← String.moveAssign w.store a x (← w.get x) y (← w.get y)
    return (w.put x r.1 r.2.1).put y r.1 r.2.2
  | .append how x y => do
    let r ← how.run w.store a x (← w.get x) y (← w.get y)
    return w.put x r.1 r.2
  | .appendCString how x cstr => do
    let r ← how.run w.store a (← w.get x) cstr
    return w.put x r.1 r.2
  | .others σ => return { w with store := σ }

/-- What callers see to: an object is constructed where there is none, and used where there is one;
a C string is readable up to its terminator; a copy is freed once; other code stays away from the
buffers of the objects. -/
def Legal : StringOp → Prop
  | .construct x => w.strings x = none
  | .constructCopy x y => w.strings x = none ∧ (w.strings y).isSome
  | .constructCString x cstr => w.strings x = none ∧ ∃ n, w.store.CString cstr n
  | .constructBytes x cstr byteCount =>
    w.strings x = none ∧ cstr ≠ 0 ∧ ∀ i < byteCount, w.store.Readable (cstr + i)
  | .destroy x => (w.strings x).isSome
  | .chop x index _ => (w.strings x).isSome ∧ index < 2 ^ 64
  | .dataCopy x => (w.strings x).isSome
  | .freeCopy p => p ∈ w.copies
  | .assign x y => (w.strings x).isSome ∧ (w.strings y).isSome
  | .moveAssign x y => (w.strings x).isSome ∧ (w.strings y).isSome
  | .append _ x y => (w.strings x).isSome ∧ (w.strings y).isSome
  | .appendCString _ x cstr => (w.strings x).isSome ∧ (cstr = 0 ∨ ∃ n, w.store.CString cstr n)
  | .others σ => σ.blocks = w.store.blocks ∧ σ.Apart ∧
    ∀ x s, w.strings x = some s → s.buffer ≠ 0 → ∀ i ≤ s.length,
      σ.mem (s.buffer + i) = w.store.mem (s.buffer + i)

/-- A step of a run. -/
def Step (w : World) (l : StringOp × Answer) (w' : World) : Prop :=
  w.Legal l.1 ∧ w.exec l.2 l.1 = .ok w'

/-! ### What an operation can do -/

/-- The buffer of the object at `x`, and null if there is no object. -/
def bufferAt (x : ℕ) : ℕ := ((w.strings x).map String.buffer).getD 0

/-- Every object has a buffer with room for its bytes and a terminator, which is there. -/
def Terminated : Prop :=
  ∀ x s, w.strings x = some s → (s.buffer, s.length + 1) ∈ w.store.blocks ∧ s.last w.store = 0

/-- The steps that leave a terminator: the byte of the new block that `String()` and `operator+`
leave as the heap returned it is 0, and an empty string is not chopped behind its end. -/
def Terminates (a : Answer) : StringOp → Prop
  | .construct _ => a.fresh (a.address + stringInitialLength) = 0
  | .chop x index .right => ∀ s, w.strings x = some s → s.length = 0 → index = 0
  | .append _ x y => x ≠ y → ∀ s t, w.strings x = some s → w.strings y = some t →
    a.fresh (a.address + (s.length + t.length)) = 0
  | _ => True

/-- **Everything an operation can do** to the population. -/
inductive Effect (w : World) (a : Answer) (op : StringOp) : World → Prop where
  | same : Effect w a op w
  | renews {x : ℕ} {s : String} {σ : Store} (h : Renews w.store (w.bufferAt x) σ s)
      (hlast : w.Terminated → w.Terminates a op → s.last σ = 0) : Effect w a op (w.put x σ s)
  | destroys {x : ℕ} {σ : Store} (h : w.store.Releases (w.bufferAt x) σ) :
      Effect w a op (w.put x σ none)
  | moves {x y : ℕ} {t : String} {σ : Store} (hxy : x ≠ y) (ht : w.strings y = some t)
      (hop : op = .moveAssign x y) (h : w.store.Releases (w.bufferAt x) σ) :
      Effect w a op ((w.put x σ (some t)).put y σ (some ⟨0, 0⟩))
  | copies {p n : ℕ} {σ : Store} (h : Renews w.store 0 σ ⟨p, n⟩) :
      Effect w a op { w with store := σ, copies := p :: w.copies }
  | frees {p : ℕ} {σ : Store} (hp : p ∈ w.copies) (h : w.store.Releases p σ) :
      Effect w a op { w with store := σ, copies := w.copies.filter (· ≠ p) }
  | others {σ : Store} (h : w.Legal (.others σ)) : Effect w a op { w with store := σ }

/-- The invariant: every object holds its buffer, alone, and every block of the operations is the
buffer of an object or a copy, but not both. -/
structure Owned (w : World) : Prop where
  apart : w.store.Apart
  holds : ∀ x s, w.strings x = some s → Holds w.store s
  distinct : ∀ x y s t, w.strings x = some s → w.strings y = some t → s.buffer ≠ 0 →
    s.buffer = t.buffer → x = y
  copies : ∀ p ∈ w.copies, w.store.Allocated p ∧ ∀ x s, w.strings x = some s → s.buffer ≠ p
  accounted : ∀ p, w.store.Allocated p → (∃ x s, w.strings x = some s ∧ s.buffer = p) ∨ p ∈ w.copies

variable {w} {w' : World} {a : Answer} {op : StringOp} {x y : ℕ} {s t : String} {σ : Store}

theorem bufferAt_of_some (h : w.strings x = some s) : w.bufferAt x = s.buffer := by
  rw [bufferAt, h]
  rfl

theorem bufferAt_of_none (h : w.strings x = none) : w.bufferAt x = 0 := by
  rw [bufferAt, h]
  rfl

theorem get_bind {β : Type*} {f : String → Except Stop β} {P : β → Prop} (h : w.strings x = some s)
    (hf : Ends Harmless P (f s)) : Ends Harmless P ((w.get x).bind f) := by
  rw [get, h]
  exact hf

theorem put_same (h : w.strings x = some s) : w.put x w.store (some s) = w := by
  rw [put, ← h, Function.update_eq_self]

theorem effect_of_or {r : Store × String} (hs : w.strings x = some s)
    (h : r = (w.store, s) ∨ Renews w.store s.buffer r.1 r.2 ∧
      (w.Terminated → w.Terminates a op → r.2.last r.1 = 0)) : w.Effect a op (w.put x r.1 r.2) := by
  obtain rfl | ⟨hrenews, hlast⟩ := h
  · rw [put_same hs]
    exact .same
  · rw [← bufferAt_of_some hs] at hrenews
    exact .renews hrenews hlast

theorem plus_effect {r : Except Stop (Store × String)} (hw : w.Owned) (hs : w.strings x = some s)
    (ht : w.strings y = some t) (hr : r = String.plus w.store a x s y t)
    (hop : w.Terminates a op → x ≠ y → ∀ s t, w.strings x = some s → w.strings y = some t →
      a.fresh (a.address + (s.length + t.length)) = 0) :
    Ends Harmless (fun r => w.Effect a op (w.put x r.1 r.2)) r := by
  subst hr
  by_cases hxy : x = y
  · rw [String.plus, if_pos hxy]
    exact effect_of_or hs (.inl rfl)
  · refine (plus_ends hxy hw.apart (hw.holds x s hs) (hw.holds y t ht)).mono fun r hr => ?_
    refine effect_of_or hs (.inr ⟨hr.1, fun _ hsets => ?_⟩)
    rw [hr.2.2.2]
    exact hop hsets hxy s t hs ht

/-- **An operation has one of the effects**, or stops without harm. -/
theorem exec_ends (hw : w.Owned) (hl : w.Legal op) :
    Ends Harmless (w.Effect a op) (w.exec a op) := by
  cases op with
  | construct x =>
    refine (construct_ends hw.apart).bind fun r hr => ?_
    refine .renews (by rw [bufferAt_of_none hl]; exact hr.1) fun _ hsets => ?_
    rw [hr.2.1]
    exact hsets
  | constructCopy x y =>
    obtain ⟨hx, hy⟩ := hl
    obtain ⟨t, ht⟩ := Option.isSome_iff_exists.1 hy
    refine get_bind ht ((constructCopy_ends hw.apart (hw.holds y t ht)).bind fun r hr => ?_)
    exact .renews (by rw [bufferAt_of_none hx]; exact hr.1) fun _ _ => hr.2.1
  | constructCString x cstr =>
    obtain ⟨hx, n, hc⟩ := hl
    refine (constructCString_ends hw.apart hc).bind fun r hr => ?_
    exact .renews (by rw [bufferAt_of_none hx]; exact hr.1) fun _ _ => hr.2.1
  | constructBytes x cstr byteCount =>
    obtain ⟨hx, hc, hread⟩ := hl
    refine (constructBytes_ends hw.apart hc hread).bind fun r hr => ?_
    exact .renews (by rw [bufferAt_of_none hx]; exact hr.1) fun _ _ => hr.2.1
  | destroy x =>
    obtain ⟨s, hs⟩ := Option.isSome_iff_exists.1 hl
    refine get_bind hs ((delete_ends hw.apart (hw.holds x s hs).touchable).bind fun σ hr => ?_)
    exact .destroys (by rw [bufferAt_of_some hs]; exact hr)
  | chop x index side =>
    obtain ⟨s, hs⟩ := Option.isSome_iff_exists.1 hl.1
    refine get_bind hs ?_
    cases side with
    | left =>
      refine (chop_left_ends hw.apart (hw.holds x s hs) hl.2).bind fun r hr => ?_
      exact effect_of_or hs (hr.imp_right fun h => ⟨h.1, fun _ _ => h.2⟩)
    | right =>
      refine (chop_right_ends hw.apart (hw.holds x s hs)).bind fun r hr => ?_
      refine effect_of_or hs (hr.imp_right fun h => ⟨h.1, fun hterm hsets => ?_⟩)
      exact h.2 (hterm x s hs).1 (hterm x s hs).2 (hsets s hs)
  | dataCopy x =>
    obtain ⟨s, hs⟩ := Option.isSome_iff_exists.1 hl
    refine get_bind hs ((dataCopy_ends hw.apart (hw.holds x s hs)).bind fun r hr => ?_)
    exact .copies hr.1
  | freeCopy p =>
    refine (delete_ends hw.apart (.inr (hw.copies p hl).1)).bind fun σ hr => ?_
    exact .frees hl hr
  | assign x y =>
    obtain ⟨s, hs⟩ := Option.isSome_iff_exists.1 hl.1
    obtain ⟨t, ht⟩ := Option.isSome_iff_exists.1 hl.2
    refine get_bind hs (get_bind ht ?_)
    by_cases hxy : x = y
    · rw [String.assign, if_pos hxy]
      exact effect_of_or hs (.inl rfl)
    · -- two strings have no buffer in common
      have hne : t.buffer = 0 ∨ t.buffer ≠ s.buffer := by
        refine or_iff_not_imp_left.2 fun h0 he => hxy ?_
        exact (hw.distinct y x t s ht hs h0 he).symm
      refine (assign_ends hxy hw.apart (hw.holds x s hs) (hw.holds y t ht) hne).bind fun r hr => ?_
      exact effect_of_or hs (.inr ⟨hr.1, fun _ _ => hr.2.1⟩)
  | moveAssign x y =>
    obtain ⟨s, hs⟩ := Option.isSome_iff_exists.1 hl.1
    obtain ⟨t, ht⟩ := Option.isSome_iff_exists.1 hl.2
    refine get_bind hs (get_bind ht ?_)
    by_cases hxy : x = y
    · subst hxy
      obtain rfl := Option.some.inj (hs.symm.trans ht)
      rw [moveAssign, if_pos rfl]
      -- a string that is assigned to itself is put back as it was
      show w.Effect a _ ((w.put x w.store (some s)).put x w.store (some s))
      rw [put_same hs, put_same hs]
      exact .same
    · rw [moveAssign, if_neg hxy]
      refine ((delete_ends hw.apart (hw.holds x s hs).touchable).bind
        fun σ hr => ?_).bind fun r hr => hr
      exact .moves hxy ht rfl (by rw [bufferAt_of_some hs]; exact hr)
  | append how x y =>
    obtain ⟨s, hs⟩ := Option.isSome_iff_exists.1 hl.1
    obtain ⟨t, ht⟩ := Option.isSome_iff_exists.1 hl.2
    refine get_bind hs (get_bind ht (Ends.bind ?_ fun r hr => hr))
    exact plus_effect hw hs ht (by cases how <;> rfl) id
  | appendCString how x cstr =>
    obtain ⟨s, hs⟩ := Option.isSome_iff_exists.1 hl.1
    refine get_bind hs ?_
    have hrun : how.run w.store a s cstr = String.plusCString w.store a s cstr := by
      cases how <;> rfl
    rw [hrun]
    refine (plusCString_ends hw.apart (hw.holds x s hs) hl.2).bind fun r hr => ?_
    exact effect_of_or hs (hr.imp_right fun h => ⟨h.1, fun _ _ => h.2⟩)
  | others σ => exact .others hl

/-! ### The invariant -/

theorem put_strings (w : World) (x : ℕ) (σ : Store) (s : Option String) (y : ℕ) :
    (w.put x σ s).strings y = if y = x then s else w.strings y :=
  Function.update_apply _ _ _ _

theorem put_put (w : World) (x : ℕ) (σ σ' : Store) (s s' : Option String) :
    (w.put x σ s).put x σ' s' = w.put x σ' s' := by
  unfold put
  dsimp only
  rw [Function.update_idem]

theorem put_cases (h : (w.put x σ (some s)).strings y = some t) :
    y = x ∧ t = s ∨ y ≠ x ∧ w.strings y = some t := by
  rw [put_strings] at h
  split_ifs at h with hxy
  · exact .inl ⟨hxy, (Option.some.inj h).symm⟩
  · exact .inr ⟨hxy, h⟩

theorem of_put_none (h : (w.put x σ none).strings y = some t) : y ≠ x ∧ w.strings y = some t := by
  rw [put_strings] at h
  split_ifs at h with hxy
  exact ⟨hxy, h⟩

namespace Owned

theorem ne_bufferAt (hw : w.Owned) (ht : w.strings y = some t) (hxy : y ≠ x) :
    t.buffer = 0 ∨ t.buffer ≠ w.bufferAt x := by
  refine or_iff_not_imp_left.2 fun h0 he => ?_
  cases hx : w.strings x with
  | none => exact h0 (he.trans (bufferAt_of_none hx))
  | some s =>
    rw [bufferAt_of_some hx] at he
    exact hxy (hw.distinct y x t s ht hx h0 he)

theorem copy_ne (hw : w.Owned) {p : ℕ} (hp : p ∈ w.copies) : p ≠ w.bufferAt x := by
  obtain ⟨halloc, hne⟩ := hw.copies p hp
  cases hx : w.strings x with
  | none =>
    rw [bufferAt_of_none hx]
    exact hw.apart.ne_null halloc
  | some s =>
    rw [bufferAt_of_some hx]
    exact (hne x s hx).symm

theorem accounted_ne (hw : w.Owned) {p : ℕ} (hp : w.store.Allocated p) (hne : p ≠ w.bufferAt x) :
    (∃ y s, y ≠ x ∧ w.strings y = some s ∧ s.buffer = p) ∨ p ∈ w.copies := by
  refine (hw.accounted p hp).imp_left fun ⟨y, s, hs, hbuf⟩ => ⟨y, s, ?_, hs, hbuf⟩
  rintro rfl
  exact hne (by rw [bufferAt_of_some hs, hbuf])

theorem allocated (hw : w.Owned) (hs : w.strings x = some s) (h0 : s.buffer ≠ 0) :
    w.store.Allocated s.buffer := (hw.holds x s hs).touchable.resolve_left h0

theorem renews (hw : w.Owned) (h : Renews w.store (w.bufferAt x) σ s) :
    (w.put x σ (some s)).Owned := by
  have hkeep : ∀ b ∈ (w.store.without (w.bufferAt x)).blocks, b ∈ σ.blocks := fun b hb => by
    rw [h.blocks]
    exact List.mem_cons_of_mem _ hb
  have hne : ∀ y t, y ≠ x → w.strings y = some t → t.buffer ≠ s.buffer := by
    intro y t hxy ht he
    have h0 : t.buffer ≠ 0 := he ▸ h.ne_null
    exact h.ne hw.apart (hw.allocated ht h0) ((hw.ne_bufferAt ht hxy).resolve_left h0) he.symm
  refine ⟨h.apart hw.apart, fun y t ht => ?_, fun y z t u ht hu h0 he => ?_, fun p hp => ⟨?_, ?_⟩,
    fun p hp => ?_⟩
  · rcases put_cases ht with ⟨-, rfl⟩ | ⟨hxy, ht⟩
    · exact .inr h.mem_blocks
    · exact ((hw.holds y t ht).without hw.apart (hw.ne_bufferAt ht hxy)).of_blocks hkeep
  · rcases put_cases ht with ⟨rfl, rfl⟩ | ⟨hy, ht'⟩ <;>
      rcases put_cases hu with ⟨rfl, rfl⟩ | ⟨hz, hu'⟩
    · rfl
    · exact absurd he.symm (hne z u hz hu')
    · exact absurd he (hne y t hy ht')
    · exact hw.distinct y z t u ht' hu' h0 he
  · exact h.allocated_iff.2 (.inr ⟨(hw.copies p hp).1, hw.copy_ne hp⟩)
  · intro y t ht
    rcases put_cases ht with ⟨-, rfl⟩ | ⟨-, ht⟩
    · exact h.ne hw.apart (hw.copies p hp).1 (hw.copy_ne hp)
    · exact (hw.copies p hp).2 y t ht
  · obtain rfl | ⟨halloc, hold⟩ := h.allocated_iff.1 hp
    · exact .inl ⟨x, s, by rw [put_strings, if_pos rfl], rfl⟩
    · refine (hw.accounted_ne halloc hold).imp_left fun ⟨y, t, hxy, ht, hbuf⟩ => ⟨y, t, ?_, hbuf⟩
      rw [put_strings, if_neg hxy, ht]

theorem destroys (hw : w.Owned) (h : w.store.Releases (w.bufferAt x) σ) :
    (w.put x σ none).Owned := by
  refine ⟨h.apart hw.apart, fun y t ht => ?_, fun y z t u ht hu => ?_, fun p hp => ⟨?_, ?_⟩,
    fun p hp => ?_⟩
  · obtain ⟨hxy, ht⟩ := of_put_none ht
    refine ((hw.holds y t ht).without hw.apart (hw.ne_bufferAt ht hxy)).of_blocks fun b hb => ?_
    rwa [put, h.blocks]
  · exact hw.distinct y z t u (of_put_none ht).2 (of_put_none hu).2
  · exact h.allocated_iff.2 ⟨(hw.copies p hp).1, hw.copy_ne hp⟩
  · exact fun y t ht => (hw.copies p hp).2 y t (of_put_none ht).2
  · obtain ⟨halloc, hold⟩ := h.allocated_iff.1 hp
    refine (hw.accounted_ne halloc hold).imp_left fun ⟨y, t, hxy, ht, hbuf⟩ => ⟨y, t, ?_, hbuf⟩
    rw [put_strings, if_neg hxy, ht]

theorem moves (hw : w.Owned) (hxy : x ≠ y) (hx : w.strings x = none) (ht : w.strings y = some t) :
    ((w.put x w.store (some t)).put y w.store (some ⟨0, 0⟩)).Owned := by
  -- the owner of a buffer is who it was, except that `x` stands in for `y`
  have hcases : ∀ {z u}, ((w.put x w.store (some t)).put y w.store (some ⟨0, 0⟩)).strings z =
    some u →
      u.buffer ≠ 0 → z = x ∧ u = t ∨ z ≠ x ∧ z ≠ y ∧ w.strings z = some u := by
    intro z u hu h0
    rcases put_cases hu with ⟨-, rfl⟩ | ⟨hzy, hu⟩
    · exact absurd rfl h0
    · rcases put_cases hu with ⟨hzx, rfl⟩ | ⟨hzx, hu⟩
      · exact .inl ⟨hzx, rfl⟩
      · exact .inr ⟨hzx, hzy, hu⟩
  refine ⟨hw.apart, fun z u hu => ?_, fun z z' u u' hu hu' h0 he => ?_,
    fun p hp => ⟨(hw.copies p hp).1,
    fun z u hu he => ?_⟩, fun p hp => ?_⟩
  · rcases put_cases hu with ⟨-, rfl⟩ | ⟨-, hu⟩
    · exact .inl ⟨rfl, rfl⟩
    · rcases put_cases hu with ⟨-, rfl⟩ | ⟨-, hu⟩
      · exact hw.holds y u ht
      · exact hw.holds z u hu
  · rcases hcases hu h0 with ⟨rfl, rfl⟩ | ⟨-, hzy, hz⟩ <;>
      rcases hcases hu' (he ▸ h0) with ⟨rfl, rfl⟩ | ⟨-, hzy', hz'⟩
    · rfl
    · exact absurd (hw.distinct y z' u u' ht hz' h0 he).symm hzy'
    · exact absurd (hw.distinct z y u u' hz ht h0 he) hzy
    · exact hw.distinct z z' u u' hz hz' h0 he
  · have h0 : u.buffer ≠ 0 := he ▸ hw.apart.ne_null (hw.copies p hp).1
    rcases hcases hu h0 with ⟨-, rfl⟩ | ⟨-, -, hz⟩
    · exact (hw.copies p hp).2 y u ht he
    · exact (hw.copies p hp).2 z u hz he
  · refine (hw.accounted p hp).imp_left ?_
    rintro ⟨z, u, hu, rfl⟩
    by_cases hzy : z = y
    · subst hzy
      obtain rfl := Option.some.inj (ht.symm.trans hu)
      exact ⟨x, t, by rw [put_strings, if_neg hxy, put_strings, if_pos rfl], rfl⟩
    · have hzx : z ≠ x := by
        rintro rfl
        cases hx.symm.trans hu
      exact ⟨z, u, by rw [put_strings, if_neg hzy, put_strings, if_neg hzx, hu], rfl⟩

theorem hands_out {p n : ℕ} (hw : w.Owned) (h : Renews w.store 0 σ ⟨p, n⟩) :
    Owned { w with store := σ, copies := p :: w.copies } := by
  have hold : ∀ {q}, w.store.Allocated q → q ≠ 0 := hw.apart.ne_null
  have hkeep : ∀ b ∈ w.store.blocks, b ∈ σ.blocks := fun b hb => by
    rw [h.blocks, hw.apart.without_zero]
    exact List.mem_cons_of_mem _ hb
  refine ⟨h.apart hw.apart, fun x s hs => (hw.holds x s hs).of_blocks hkeep, hw.distinct,
    fun q hq => ?_, fun q hq => ?_⟩
  · obtain rfl | hq := List.mem_cons.1 hq
    · refine ⟨h.allocated_iff.2 (.inl rfl), fun x s hs he => ?_⟩
      have halloc := hw.allocated hs (he ▸ h.ne_null)
      exact h.ne hw.apart halloc (hold halloc) he.symm
    · exact ⟨h.allocated_iff.2 (.inr ⟨(hw.copies q hq).1, hold (hw.copies q hq).1⟩),
        (hw.copies q hq).2⟩
  · obtain rfl | ⟨halloc, -⟩ := h.allocated_iff.1 hq
    · exact .inr List.mem_cons_self
    · exact (hw.accounted q halloc).imp_right (List.mem_cons_of_mem _)

theorem takes_back {p : ℕ} (hw : w.Owned) (hp : p ∈ w.copies) (h : w.store.Releases p σ) :
    Owned { w with store := σ, copies := w.copies.filter (· ≠ p) } := by
  have hmem : ∀ {q}, q ∈ w.copies.filter (· ≠ p) ↔ q ∈ w.copies ∧ q ≠ p := fun {q} => by
    rw [List.mem_filter, decide_eq_true_iff]
  refine ⟨h.apart hw.apart, fun x s hs => ?_, hw.distinct, fun q hq => ?_, fun q hq => ?_⟩
  · refine ((hw.holds x s hs).without hw.apart (.inr ((hw.copies p hp).2 x s hs))).of_blocks ?_
    intro b hb
    rwa [h.blocks]
  · obtain ⟨hq, hne⟩ := hmem.1 hq
    exact ⟨h.allocated_iff.2 ⟨(hw.copies q hq).1, hne⟩, (hw.copies q hq).2⟩
  · obtain ⟨halloc, hne⟩ := h.allocated_iff.1 hq
    exact (hw.accounted q halloc).imp_right fun hq => hmem.2 ⟨hq, hne⟩

theorem others (hw : w.Owned) (h : w.Legal (.others σ)) : Owned { w with store := σ } := by
  obtain ⟨hblocks, hapart, -⟩ := h
  have halloc : ∀ {q}, σ.Allocated q ↔ w.store.Allocated q := fun {q} => by
    rw [Allocated, Allocated, hblocks]
  refine ⟨hapart, fun x s hs => (hw.holds x s hs).of_blocks fun b hb => ?_, hw.distinct,
    fun q hq => ?_,
    fun q hq => hw.accounted q (halloc.1 hq)⟩
  · rwa [hblocks]
  · exact ⟨halloc.2 (hw.copies q hq).1, (hw.copies q hq).2⟩

theorem start (hσ : σ.Apart) (hblocks : σ.blocks = []) : (World.start σ).Owned := by
  refine ⟨hσ, fun x s hs => ?_, fun x y s t hs => ?_,
    fun p hp => absurd hp List.not_mem_nil, fun p hp => ?_⟩
  · cases hs
  · cases hs
  · rw [Allocated, World.start, hblocks] at hp
    exact absurd hp List.not_mem_nil

/-- **Every operation keeps the invariant.** -/
theorem step (hw : w.Owned) (h : w.Effect a op w') : w'.Owned := by
  cases h with
  | same => exact hw
  | renews h => exact hw.renews h
  | destroys h => exact hw.destroys h
  | moves hxy ht _ h =>
    rw [← put_put w _ _ _ none]
    refine (hw.destroys h).moves hxy ?_ ?_
    · rw [put_strings, if_pos rfl]
    · rw [put_strings, if_neg hxy.symm, ht]
  | copies h => exact hw.hands_out h
  | frees hp h => exact hw.takes_back hp h
  | others h => exact hw.others h

end Owned

theorem Step.effect {l : StringOp × Answer} (h : w.Step l w') (hw : w.Owned) :
    w.Effect l.2 l.1 w' :=
  (exec_ends hw h.1).of_ok h.2

theorem run_owned {ops : List (StringOp × Answer)} (hσ : σ.Apart) (hblocks : σ.blocks = [])
    (h : Run Step (start σ) ops w) : w.Owned :=
  h.invariant (.start hσ hblocks) fun _ _ _ hw hstep => hw.step (hstep.effect hw)

/-- Distinct objects own distinct buffers, every buffer is allocated, and the allocated blocks of
the operations are the buffers of the objects and the copies of `data_copy`. -/
structure Exclusive (w : World) : Prop where
  distinct : ∀ x y s t, w.strings x = some s → w.strings y = some t → x ≠ y → s.buffer ≠ 0 →
    s.buffer ≠ t.buffer
  allocated : ∀ x s, w.strings x = some s → s.buffer ≠ 0 → w.store.Allocated s.buffer
  accounted : ∀ p, w.store.Allocated p ↔
    (∃ x s, w.strings x = some s ∧ s.buffer = p ∧ p ≠ 0) ∨ p ∈ w.copies

theorem Owned.exclusive (hw : w.Owned) : w.Exclusive := by
  refine ⟨fun x y s t hs ht hxy h0 he => hxy (hw.distinct x y s t hs ht h0 he),
    fun x s hs h0 => hw.allocated hs h0, fun p => ⟨fun hp => ?_, ?_⟩⟩
  · exact (hw.accounted p hp).imp_left fun ⟨x, s, hs, he⟩ => ⟨x, s, hs, he, hw.apart.ne_null hp⟩
  · rintro (⟨x, s, hs, rfl, h0⟩ | hp)
    · exact hw.allocated hs h0
    · exact (hw.copies p hp).1

end World

/-- **No double free, no use after free, no leak.**  In every run of operations over any number of
objects, whatever the heap answers and whatever other code does, the ownership is exclusive, and no
operation uses or deletes a block that is not allocated. -/
theorem strings_own_buffers {σ : Store} {ops : List (StringOp × Answer)} {w : World} (hσ : σ.Apart)
    (hblocks : σ.blocks = []) (hrun : Run World.Step (World.start σ) ops w) :
    w.Exclusive ∧ ∀ op a, w.Legal op →
      w.exec a op ≠ .error .doubleFree ∧ w.exec a op ≠ .error .useAfterFree := by
  have hw := World.run_owned hσ hblocks hrun
  refine ⟨hw.exclusive, fun op a hl => ⟨fun he => ?_, fun he => ?_⟩⟩
  · exact ((World.exec_ends hw hl).of_error he).2 rfl
  · exact ((World.exec_ends hw hl).of_error he).1 rfl

/-- A heap without blocks. -/
def Store.empty : Store := ⟨fun _ => 0, [], []⟩

theorem Store.apart_empty : Store.empty.Apart :=
  ⟨fun _ hb => absurd hb List.not_mem_nil, List.Pairwise.nil⟩

/-- The heap hands out the payload of its first segment, full of bytes `v`. -/
def Answer.first (v : UInt8) : Answer := ⟨heapVirtualBase + headerSize, fun _ => v, fun _ => 0⟩

/-- The object of the default constructor in this block. -/
def String.first : String := ⟨heapVirtualBase + headerSize, stringInitialLength⟩

/-- One object, made by the default constructor. -/
def World.first (v : UInt8) : World where
  store :=
    { mem := fill (fun x => if Store.empty.Kept x then 0 else v) String.first.buffer
        stringInitialLength 0
      blocks := [(String.first.buffer, String.first.length + 1)]
      foreign := [] }
  strings := Function.update (fun _ => none) 0 (some String.first)
  copies := []

theorem World.step_first (v : UInt8) :
    World.Step (.start .empty) (.construct 0, .first v) (.first v) :=
  ⟨rfl, rfl⟩

/-- The heap hands out zeros, `offset` bytes behind the payload of its first segment. -/
def Answer.zeros (offset : ℕ) : Answer :=
  ⟨heapVirtualBase + headerSize + offset, fun _ => 0, fun _ => 0⟩

/-- Two objects; one is appended to the other, gets its buffer, and is destroyed. -/
def movedCalls : List (StringOp × Answer) :=
  [(.construct 0, .zeros 0), (.construct 1, .zeros 36), (.append .plusAssign 0 1, .zeros 72),
    (.moveAssign 1 0, .zeros 72), (.destroy 1, .zeros 72)]

theorem strings_own_buffers_moved : ∃ w, Run World.Step (.start .empty) movedCalls w ∧
    w.Exclusive ∧ ∀ op a, w.Legal op →
      w.exec a op ≠ .error .doubleFree ∧ w.exec a op ≠ .error .useAfterFree := by
  obtain ⟨w, hrun⟩ : ∃ w, Run World.Step (.start .empty) movedCalls w := by
    refine ⟨_, ((((Run.nil.snoc ⟨rfl, rfl⟩).snoc ⟨rfl, rfl⟩).snoc ⟨⟨rfl, rfl⟩, rfl⟩).snoc
      ⟨⟨rfl, rfl⟩, rfl⟩).snoc ⟨?_, rfl⟩⟩
    rfl
  exact ⟨w, hrun, strings_own_buffers Store.apart_empty rfl hrun⟩

end Eterna
