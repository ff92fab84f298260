import Eterna.Strings.Ownership

/-!
# What the strings contain

* `append_exact_iff` : exactly when appending a `String` gives the bytes of both strings;
* `strings_terminated` : in which runs every string stays terminated.
-/

namespace Eterna

open ByteMemory Outcome Runs Store Eterna.String

variable {σ : Store} {w w' : World} {ops : List (StringOp × Answer)} {a : Answer} {op : StringOp}
  {x y old : ℕ} {s t : String}

/-! ### Appending -/

/-- The object at `x` has become the string `s` followed by the string `t`. -/
def World.Appends (w : World) (x : ℕ) (s t : String) (w' : World) : Prop :=
  ∃ s', w'.strings x = some s' ∧ s'.contents w'.store = s.contents w.store ++ t.contents w.store ∧
    s'.length = s.length + t.length

namespace World

theorem exec_append_self (how : AppendString) (hs : w.strings x = some s) :
    w.exec a (.append how x x) = .ok w := by
  have hrun : how.run w.store a x s x s = .ok (w.store, s) := by
    cases how <;> exact if_pos rfl
  have hexec : w.exec a (.append how x x) =
      (how.run w.store a x s x s).bind fun r => .ok (w.put x r.1 (some r.2)) := by
    rw [exec, get, hs]
    rfl
  rw [hexec, hrun]
  exact congrArg Except.ok (put_same hs)

theorem Owned.exec_append (hw : w.Owned) (how : AppendString) (hs : w.strings x = some s)
    (ht : w.strings y = some t) (hxy : x ≠ y) :
    Ends Harmless (w.Appends x s t) (w.exec a (.append how x y)) := by
  have hrun : how.run w.store a x s y t = String.plus w.store a x s y t := by cases how <;> rfl
  refine get_bind hs (get_bind ht ?_)
  rw [hrun]
  refine (plus_ends hxy hw.apart (hw.holds x s hs) (hw.holds y t ht)).bind fun r hr => ?_
  refine ⟨r.2, by rw [put_strings, if_pos rfl], hr.2.2.1, hr.2.1⟩

/-- Twice the bytes of a string are the same bytes only if there are none. -/
theorem appends_self_iff (hs : w.strings x = some s) : w.Appends x s s w ↔ s.length = 0 := by
  constructor
  · rintro ⟨s', hs', -, hlen⟩
    obtain rfl := Option.some.inj (hs.symm.trans hs')
    omega
  · intro h0
    refine ⟨s, hs, ?_, by omega⟩
    have hnil : s.contents w.store = [] := List.length_eq_zero_iff.1 (length_bytes.trans h0)
    rw [hnil]
    rfl

end World

/-- **Appending a string** gives the bytes of both exactly if they are different objects or the
string is empty. -/
theorem append_exact_iff (hσ : σ.Apart) (hblocks : σ.blocks = [])
    (hrun : Run World.Step (World.start σ) ops w) {how : AppendString} (hs : w.strings x = some s)
    (ht : w.strings y = some t) (hexec : w.exec a (.append how x y) = .ok w') :
    w.Appends x s t w' ↔ x ≠ y ∨ s.length = 0 := by
  have hw := World.run_owned hσ hblocks hrun
  by_cases hxy : x = y
  · subst hxy
    obtain rfl := Option.some.inj (hs.symm.trans ht)
    obtain rfl := Except.ok.inj ((World.exec_append_self how hs).symm.trans hexec)
    rw [World.appends_self_iff hs]
    exact (or_iff_right fun h => h rfl).symm
  · exact iff_of_true ((hw.exec_append how hs ht hxy).of_ok hexec) (.inl hxy)

/-- One string of ten bytes is appended to another. -/
theorem append_exact_iff_pair : ∃ w w' s t,
    Run World.Step (.start .empty) [(.construct 0, .zeros 0), (.construct 1, .zeros 36)] w ∧
    w.exec (.zeros 72) (.append .plusAssign 0 1) = .ok w' ∧ s.length = 10 ∧
    w.Appends 0 s t w' := by
  obtain ⟨w, w', s, t, hrun, hs, ht, hexec, hlen⟩ : ∃ w w' s t,
      Run World.Step (.start .empty) [(.construct 0, .zeros 0), (.construct 1, .zeros 36)] w ∧
      w.strings 0 = some s ∧ w.strings 1 = some t ∧
      w.exec (.zeros 72) (.append .plusAssign 0 1) = .ok w' ∧ s.length = 10 := by
    refine ⟨_, _, _, _, (Run.nil.snoc ⟨rfl, rfl⟩).snoc ⟨?_, rfl⟩, rfl, rfl, rfl, rfl⟩
    rfl
  have happends := (append_exact_iff Store.apart_empty rfl hrun hs ht hexec).2 (.inl (by decide))
  exact ⟨w, w', s, t, hrun, hexec, hlen, happends⟩

/-- `s += s` leaves the string of ten bytes as it is. -/
theorem append_self_unchanged :
    ¬ ∀ (σ : Store) (ops : List (StringOp × Answer)) (w : World) (a : Answer)
    (how : AppendString) (x y : ℕ) (s t : String) (w' : World), σ.Apart → σ.blocks = [] →
    Run World.Step (World.start σ) ops w → w.strings x = some s → w.strings y = some t →
    w.exec a (.append how x y) = .ok w' → w.Appends x s t w' := by
  intro hall
  have happends := hall .empty _ (.first 0) (.first 0) .plusAssign 0 0 .first .first (.first 0)
    Store.apart_empty rfl (.single (World.step_first 0)) rfl rfl (World.exec_append_self _ rfl)
  have hlen := (World.appends_self_iff rfl).1 happends
  revert hlen
  decide

/-! ### Terminators -/

/-- The steps without move assignments. -/
def PlainStep (w : World) (l : StringOp × Answer) (w' : World) : Prop :=
  w.Step l w' ∧ ∀ x y, l.1 ≠ .moveAssign x y

/-- The steps among them that leave a terminator. -/
def TerminatingStep (w : World) (l : StringOp × Answer) (w' : World) : Prop :=
  PlainStep w l w' ∧ w.Terminates l.2 l.1

namespace World

theorem keep_last (hmem : (t.buffer, t.length + 1) ∈ (w.store.without old).blocks)
    (hkeep : ∀ x, (w.store.without old).Kept x → σ.mem x = w.store.mem x)
    (hlast : t.last w.store = 0) :
    t.last σ = 0 :=
  (hkeep _ (kept_of_mem_blocks hmem (Nat.lt_succ_self _))).trans hlast

theorem Terminated.step (hT : w.Terminated) (hw : w.Owned) (h : w.Effect a op w')
    (hplain : ∀ x y, op ≠ .moveAssign x y) (hterm : w.Terminates a op) : w'.Terminated := by
  -- the block of a string is still there when that of another one has been freed
  have hstay : ∀ {x y t}, w.strings y = some t → y ≠ x →
      (t.buffer, t.length + 1) ∈ (w.store.without (w.bufferAt x)).blocks := fun {x y t} ht hxy => by
    have hmem := (hT y t ht).1
    exact mem_without.2 ⟨hmem, (hw.ne_bufferAt ht hxy).resolve_left
      (hw.apart.ne_null (allocated_of_mem hmem))⟩
  cases h with
  | same => exact hT
  | renews h hlast =>
    intro y t ht
    rcases put_cases ht with ⟨-, rfl⟩ | ⟨hxy, ht⟩
    · exact ⟨h.mem_blocks, hlast hT hterm⟩
    · refine ⟨?_, keep_last (hstay ht hxy) h.mem (hT y t ht).2⟩
      rw [put, h.blocks]
      exact List.mem_cons_of_mem _ (hstay ht hxy)
  | destroys h =>
    intro y t ht
    obtain ⟨hxy, ht⟩ := of_put_none ht
    refine ⟨?_, keep_last (hstay ht hxy) h.mem (hT y t ht).2⟩
    rw [put, h.blocks]
    exact hstay ht hxy
  | moves _ _ hop _ => exact absurd hop (hplain _ _)
  | copies h =>
    intro y t ht
    have hmem : (t.buffer, t.length + 1) ∈ (w.store.without 0).blocks := by
      rw [hw.apart.without_zero]
      exact (hT y t ht).1
    refine ⟨?_, keep_last hmem h.mem (hT y t ht).2⟩
    rw [h.blocks]
    exact List.mem_cons_of_mem _ hmem
  | frees hp h =>
    intro y t ht
    have hmem := mem_without.2 ⟨(hT y t ht).1, (hw.copies _ hp).2 y t ht⟩
    refine ⟨?_, keep_last hmem h.mem (hT y t ht).2⟩
    rwa [h.blocks]
  | others h =>
    intro y t ht
    obtain ⟨hmem, hlast⟩ := hT y t ht
    refine ⟨by rwa [h.1], (h.2.2 y t ht ?_ _ le_rfl).trans hlast⟩
    exact hw.apart.ne_null (allocated_of_mem hmem)

end World

/-- **Every string is terminated**, in every run of constructions, copy assignments, appends, chops
and destructions in which the byte behind the contents that `String()` and `operator+` leave as they
get it happens to be 0, and no empty string is chopped behind its end. -/
theorem strings_terminated (hσ : σ.Apart) (hblocks : σ.blocks = [])
    (hrun : Run TerminatingStep (World.start σ) ops w) : w.Terminated := by
  refine (hrun.invariant (I := fun w => w.Owned ∧ w.Terminated) ⟨.start hσ hblocks, ?_⟩ ?_).2
  · intro x s hs
    cases hs
  · rintro w l w' ⟨hw, hT⟩ ⟨⟨hstep, hplain⟩, hterm⟩
    have heffect := hstep.effect hw
    exact ⟨hw.step heffect, hT.step hw heffect hplain hterm⟩

/-- Two strings, one appended to the other. -/
theorem strings_terminated_appended : ∃ w, Run TerminatingStep (.start .empty)
    [(.construct 0, .zeros 0), (.construct 1, .zeros 36), (.append .plusAssign 0 1, .zeros 72)] w ∧
    w.Terminated := by
  obtain ⟨w, hrun⟩ : ∃ w, Run TerminatingStep (.start .empty)
      [(.construct 0, .zeros 0), (.construct 1, .zeros 36),
        (.append .plusAssign 0 1, .zeros 72)] w :=
    ⟨_, ((Run.nil.snoc ⟨⟨⟨rfl, rfl⟩, nofun⟩, rfl⟩).snoc ⟨⟨⟨rfl, rfl⟩, nofun⟩, rfl⟩).snoc
      ⟨⟨⟨⟨rfl, rfl⟩, rfl⟩, nofun⟩, fun _ _ _ _ _ => rfl⟩⟩
  exact ⟨w, hrun, strings_terminated Store.apart_empty rfl hrun⟩

theorem plainStep_first (v : UInt8) :
    PlainStep (World.start .empty) (.construct 0, .first v) (.first v) :=
  ⟨World.step_first v, fun x y h => by cases h⟩

/-- `String()` clears ten of its eleven bytes. -/
theorem default_not_terminated :
    ¬ ∀ (σ : Store) (ops : List (StringOp × Answer)) (w : World), σ.Apart →
    σ.blocks = [] → Run PlainStep (World.start σ) ops w → w.Terminated := by
  intro hall
  have hlast := (hall .empty _ _ Store.apart_empty rfl (.single (plainStep_first 1)) 0 .first rfl).2
  revert hlast
  decide

end Eterna
