import Eterna.Library.ByteMemory

/-!
# Readable bytes and terminated strings

A view gives the bytes of memory that may be read.  `CString V p s` says that the string `s` lies at
`p` and ends with a zero byte.

* `CString.eq_nil`, `CString.exists_cons` : what the first byte says of the string;
* `CString.of_bytes` : the string that lies in a region of a buffer;
* `exists_cstring` : where there is a zero byte, there is a string;
* `CString.congr` : nothing beyond the terminator matters;
* `Block` : some bytes lie at `p`, whatever follows them.
-/

namespace CStrings

open ByteMemory

/-- The bytes that may be read. -/
abbrev View := ℕ → Option UInt8

/-- The string `s` and a terminator lie at `p`. -/
def CString (V : View) (p : ℕ) : List UInt8 → Prop
  | [] => V p = some 0
  | b :: s => V p = some b ∧ b ≠ 0 ∧ CString V (p + 1) s

instance CString.decidable (V : View) : ∀ p s, Decidable (CString V p s)
  | p, [] => inferInstanceAs (Decidable (V p = some 0))
  | p, _ :: s =>
    have := CString.decidable V (p + 1) s
    inferInstanceAs (Decidable (_ ∧ _ ∧ _))

/-- The bytes `s` lie at `p`. -/
def Block (V : View) (p : ℕ) : List UInt8 → Prop
  | [] => True
  | b :: s => V p = some b ∧ Block V (p + 1) s

/-- A buffer all of which may be read. -/
def View.ofMemory (M : Memory) : View := fun x => some (M x)

/-- A string literal by itself. -/
def View.ofText (s : List UInt8) : View := fun i => (s ++ [0])[i]?

/-- The same may be read from `p` to `q`. -/
def Agree (V V' : View) (p q : ℕ) : Prop := ∀ x, p ≤ x → x ≤ q → V' x = V x

variable {V : View} {p : ℕ} {s : List UInt8} {b : UInt8}

theorem CString.eq_nil (h : CString V p s) (hp : V p = some 0) : s = [] := by
  cases s with
  | nil => rfl
  | cons c s => exact absurd (Option.some.inj (h.1.symm.trans hp)) h.2.1

theorem CString.exists_cons (h : CString V p s) (hp : V p = some b) (hb : b ≠ 0) :
    ∃ r, s = b :: r ∧ CString V (p + 1) r := by
  cases s with
  | nil => exact absurd (Option.some.inj (hp.symm.trans h)) hb
  | cons c s =>
    obtain ⟨hc, -, hs⟩ := h
    cases hp.symm.trans hc
    exact ⟨s, rfl, hs⟩

theorem CString.view_head (h : CString V p s) (hb : b ∈ s.head?) : V p = some b := by
  cases s with
  | nil => cases hb
  | cons c s =>
    cases hb
    exact h.1

theorem CString.exists_view (h : CString V p s) : ∃ c, V p = some c := by
  cases s with
  | nil => exact ⟨0, h⟩
  | cons c s => exact ⟨c, h.1⟩

theorem CString.drop (h : CString V p s) {k : ℕ} (hk : k ≤ s.length) :
    CString V (p + k) (s.drop k) := by
  induction s generalizing p k with
  | nil =>
    cases Nat.le_zero.1 hk
    exact h
  | cons c s ih =>
    cases k with
    | zero => exact h
    | succ k =>
      rw [← Nat.add_assoc, Nat.add_right_comm]
      exact ih h.2.2 (Nat.le_of_succ_le_succ hk)

theorem CString.prefix_of_block (h : CString V p s) {f : List UInt8} (hf : Block V p f)
    (h0 : 0 ∉ f) : f <+: s := by
  induction f generalizing p s with
  | nil => exact List.nil_prefix
  | cons b f ih =>
    rw [List.mem_cons, not_or] at h0
    obtain ⟨r, rfl, hr⟩ := h.exists_cons hf.1 (Ne.symm h0.1)
    exact List.cons_prefix_cons.2 ⟨rfl, ih hr hf.2 h0.2⟩

theorem CString.length_le (h : CString V p s) {n : ℕ} (hn : V (p + n) = some 0) :
    s.length ≤ n := by
  induction s generalizing p n with
  | nil => exact Nat.zero_le n
  | cons b s ih =>
    cases n with
    | zero => exact absurd (Option.some.inj (h.1.symm.trans hn)) h.2.1
    | succ n =>
      rw [← Nat.add_assoc, Nat.add_right_comm] at hn
      exact Nat.succ_le_succ (ih h.2.2 hn)

theorem Agree.of_le {V' : View} {p' q : ℕ} (h : Agree V V' p q) (hp : p ≤ p') :
    Agree V V' p' q := fun x hx => h x (hp.trans hx)

theorem CString.congr {V' : View} (h : CString V p s) (hV : Agree V V' p (p + s.length)) :
    CString V' p s := by
  induction s generalizing p with
  | nil => exact (hV p le_rfl le_rfl).trans h
  | cons b s ih =>
    have hend : p + 1 + s.length = p + (b :: s).length := by rw [List.length_cons]; omega
    refine ⟨(hV p le_rfl (Nat.le_add_right _ _)).trans h.1, h.2.1, ih h.2.2 ?_⟩
    rw [hend]
    exact hV.of_le (Nat.le_succ p)

theorem CString.unique {t : List UInt8} (h : CString V p s) (h' : CString V p t) : s = t := by
  induction s generalizing p t with
  | nil => exact (h'.eq_nil h).symm
  | cons b s ih =>
    obtain ⟨r, rfl, hr⟩ := h'.exists_cons h.1 h.2.1
    rw [ih h.2.2 hr]

theorem CString.ofText (h : 0 ∉ s) : CString (View.ofText s) 0 s := by
  have hall (a t : List UInt8) (ht : 0 ∉ t) : CString (View.ofText (a ++ t)) a.length t := by
    induction t generalizing a with
    | nil =>
      rw [List.append_nil]
      exact List.getElem?_concat_length
    | cons b t ih =>
      rw [List.mem_cons, not_or] at ht
      refine ⟨?_, Ne.symm ht.1, ?_⟩
      · rw [View.ofText, List.append_assoc, List.getElem?_append_right le_rfl, Nat.sub_self]
        rfl
      · have := ih (a ++ [b]) ht.2
        rwa [List.append_assoc, List.length_append] at this
  exact hall [] s h

theorem CString.view_eq (h : CString V p s) {i : ℕ} (hi : i < s.length) :
    V (p + i) = some s[i] := by
  induction s generalizing p i with
  | nil => cases hi
  | cons b s ih =>
    cases i with
    | zero => exact h.1
    | succ i =>
      rw [← Nat.add_assoc, Nat.add_right_comm]
      exact ih h.2.2 (Nat.lt_of_succ_lt_succ hi)

theorem CString.view_of_getElem? (h : CString V p s) {i : ℕ} (hi : s[i]? = some b) :
    V (p + i) = some b := by
  obtain ⟨hlt, rfl⟩ := List.getElem?_eq_some_iff.1 hi
  exact h.view_eq hlt

/-! ### Strings in a buffer -/

variable {M : Memory} {n : ℕ}

theorem CString.of_bytes (h : bytes M p s.length = s) (hend : M (p + s.length) = 0)
    (hs : 0 ∉ s) : CString (View.ofMemory M) p s := by
  induction s generalizing p with
  | nil => exact congrArg some hend
  | cons b s ih =>
    rw [List.length_cons, Nat.add_comm, bytes_add] at h
    obtain ⟨hb, hrest⟩ := List.cons_eq_cons.1 h
    rw [List.mem_cons, not_or] at hs
    refine ⟨congrArg some hb, Ne.symm hs.1, ih hrest ?_ hs.2⟩
    rwa [Nat.add_assoc, Nat.add_comm 1, ← List.length_cons (a := b)]

theorem CString.bytes_eq (h : CString (View.ofMemory M) p s) (hn : s.length < n) :
    ∃ rest, bytes M p n = s ++ 0 :: rest := by
  induction s generalizing p n with
  | nil =>
    obtain ⟨n, rfl⟩ := Nat.exists_eq_succ_of_ne_zero (Nat.ne_of_gt hn)
    refine ⟨bytes M (p + 1) n, ?_⟩
    rw [Nat.succ_eq_one_add, bytes_add]
    exact congrArg (fun b => b :: bytes M (p + 1) n) (Option.some.inj h)
  | cons b s ih =>
    obtain ⟨n, rfl⟩ := Nat.exists_eq_succ_of_ne_zero (Nat.ne_of_gt (Nat.zero_lt_of_lt hn))
    obtain ⟨rest, hrest⟩ := ih h.2.2 (Nat.lt_of_succ_lt_succ hn)
    refine ⟨rest, ?_⟩
    rw [Nat.succ_eq_one_add, bytes_add, hrest]
    exact congrArg (fun b => b :: (s ++ 0 :: rest)) (Option.some.inj h.1)

theorem exists_cstring (h : M (p + n) = 0) :
    ∃ s, s.length ≤ n ∧ CString (View.ofMemory M) p s := by
  induction n generalizing p with
  | zero => exact ⟨[], le_rfl, congrArg some h⟩
  | succ n ih =>
    by_cases hp : M p = 0
    · exact ⟨[], Nat.zero_le _, congrArg some hp⟩
    · rw [← Nat.add_assoc, Nat.add_right_comm] at h
      obtain ⟨s, hlen, hs⟩ := ih h
      exact ⟨M p :: s, Nat.succ_le_succ hlen, rfl, hp, hs⟩

end CStrings
