import Eterna.Library.Outcome
import Eterna.Serial.Uart

/-!
# Color codes

What the serial port shows of a terminated string.  If color codes are hidden, everything from an
escape character to the next `m` is left out, and the character after the `m` is sent whatever it
is.

* `hideColorCode_spec` : where the string goes on after a color code;
* `UART.out_spec` : the port shows what is visible of the string;
* `UART.out_eq` : a terminated string without escape characters is sent as it is;
* `UART.outBuffer_improves` : with more fuel the same bytes of a buffer are sent.
-/

namespace Eterna

open CStrings Outcome

/-- How a character is read: as text, inside a color code, or after one. -/
inductive Phase where
  | text
  | code
  | after
deriving DecidableEq

/-- The characters of a string that are sent, each with the one that follows it in the string. -/
def visible (hide : Bool) : Phase → Text → List (UInt8 × Option UInt8)
  | _, [] => []
  | .text, c :: s =>
    if hide ∧ c = escape then visible hide .code s else (c, s.head?) :: visible hide .text s
  | .code, c :: s => if c = chr 'm' then visible hide .after s else visible hide .code s
  | .after, c :: s => (c, s.head?) :: visible hide .text s

/-- What is sent of a string. -/
def shown (hide : Bool) (s : Text) : Text := (visible hide .text s).map Prod.fst

/-- The loop goes on at the place that is given, not before `start`, with the characters `l`; the
string ends at `finish`. -/
def Resumes (hide : Bool) (V : View) (l : List (UInt8 × Option UInt8)) (start finish : ℕ) :
    Option ℕ → Prop
  | none => l = []
  | some c => start ≤ c ∧ ∃ d s, CString V c (d :: s) ∧
      l = (d, s.head?) :: visible hide .text s ∧ c + (d :: s).length = finish

variable {hide : Bool} {V : View} {c fuel : ℕ} {s : Text} {d : UInt8}

theorem visible_text (h : d ≠ escape) :
    visible hide .text (d :: s) = (d, s.head?) :: visible hide .text s :=
  if_neg fun h' => h h'.2

theorem shown_eq (h : hide → escape ∉ s) : shown hide s = s := by
  induction s with
  | nil => rfl
  | cons d s ih =>
    have hd : ¬ (hide ∧ d = escape) := fun h' => h h'.1 (by rw [h'.2]; exact .head _)
    rw [shown, visible, if_neg hd, List.map_cons]
    exact congrArg _ (ih fun h' hs => h h' (.tail _ hs))

theorem visible_sublist (ph : Phase) : ((visible hide ph s).map Prod.fst).Sublist s := by
  induction s generalizing ph with
  | nil => cases ph <;> exact .slnil
  | cons d s ih =>
    cases ph with
    | text =>
      rw [visible]
      split_ifs
      · exact (ih .code).cons d
      · exact (ih .text).cons_cons d
    | code =>
      rw [visible]
      split_ifs
      · exact (ih .after).cons d
      · exact (ih .code).cons d
    | after => exact (ih .text).cons_cons d

theorem shown_sublist : (shown hide s).Sublist s := visible_sublist .text

theorem Resumes.mono {l : List (UInt8 × Option UInt8)} {start start' finish : ℕ}
    (hle : start' ≤ start) {r : Option ℕ} (h : Resumes hide V l start finish r) :
    Resumes hide V l start' finish r := by
  cases r with
  | none => exact h
  | some c => exact ⟨hle.trans h.1, h.2⟩

theorem skipColorCode_spec {finish : ℕ} (hs : CString V (c + 1) s)
    (hfinish : c + 1 + s.length = finish) :
    Ends (fun _ => fuel ≤ s.length) (Resumes hide V (visible hide .code s) c finish)
      (skipColorCode V fuel c) := by
  induction fuel generalizing c s with
  | zero => exact Nat.zero_le _
  | succ fuel ih =>
    cases s with
    | nil =>
      rw [skipColorCode, readByte_eq hs]
      exact rfl
    | cons d s =>
      obtain ⟨hview, h0, hs⟩ := hs
      rw [List.length_cons, Nat.add_comm s.length, ← Nat.add_assoc] at hfinish
      rw [skipColorCode, readByte_eq hview]
      refine .ite (fun h => absurd h h0) fun _ => .ite (fun hm => ?_) fun hm => ?_
      · rw [visible, if_pos hm]
        cases s with
        | nil =>
          rw [readByte_eq hs]
          exact rfl
        | cons e s =>
          rw [readByte_eq hs.1]
          change Resumes _ _ _ _ _ (if e = 0 then none else some (c + 2))
          rw [if_neg hs.2.1]
          exact ⟨Nat.le_add_right c 2, e, s, hs, rfl, hfinish⟩
      · rw [visible, if_neg hm]
        exact (ih hs hfinish).imp (fun _ => Nat.succ_le_succ) fun _ => .mono (Nat.le_succ c)

/-- Where the string goes on after `if (*c == '\033')`. -/
theorem hideColorCode_spec (hs : CString V c (d :: s)) :
    Ends (fun _ => fuel ≤ s.length)
      (Resumes hide V (visible hide .text (d :: s)) c (c + (d :: s).length))
      (hideColorCode hide V fuel c) := by
  rw [hideColorCode, readByte_eq hs.1, visible]
  change Ends _ _ (if hide ∧ d = escape then _ else _)
  split
  · exact skipColorCode_spec hs.2.2 (by rw [List.length_cons]; omega)
  · exact ⟨le_rfl, d, s, hs, rfl, rfl⟩

/-! ### What is read -/

namespace UART

theorem out_spec (hs : CString V c s) :
    Ends (fun _ => fuel ≤ s.length) (· = shown hide s) (out hide V fuel c) := by
  induction fuel generalizing c s with
  | zero => exact Nat.zero_le _
  | succ fuel ih =>
    cases s with
    | nil =>
      rw [out, readByte_eq hs]
      exact rfl
    | cons d s =>
      rw [out, readByte_eq hs.1]
      refine .ite (fun h => absurd h hs.2.1) fun _ => ?_
      refine ((hideColorCode_spec hs).imp (fun _ => Nat.succ_le_succ) fun _ => id).bind ?_
      rintro (_ | c') hc
      · exact (congrArg (List.map Prod.fst) hc).symm
      · obtain ⟨hle, e, s', hs', hl, hend⟩ := hc
        have hshown : shown hide (d :: s) = e :: shown hide s' := congrArg (List.map Prod.fst) hl
        have hlen : s'.length ≤ s.length := by
          simp only [List.length_cons] at hend
          omega
        have hrest := (ih hs'.2.2).imp (fun _ h => Nat.succ_le_succ (h.trans hlen)) fun _ => id
        rw [hshown]
        change Ends _ _ ((readByte V c').bind _)
        rw [readByte_eq hs'.1]
        exact hrest.bind fun text htext => congrArg _ htext

theorem out_eq_shown (hs : CString V c s) (hfuel : s.length < fuel) :
    out hide V fuel c = .ok (shown hide s) := by
  obtain ⟨text, htext, rfl⟩ := (@out_spec hide _ _ _ _ hs).exists_ok fun _ =>
    Nat.not_le_of_gt hfuel
  exact htext

theorem out_eq (hs : CString V c s) (hesc : escape ∉ s) (hfuel : s.length < fuel) :
    out hide V fuel c = .ok s := by
  rw [out_eq_shown hs hfuel, shown_eq fun _ => hesc]

/-! ### More fuel -/

theorem skipInBuffer_improves {str n : ℕ} :
    Improves (skipInBuffer V fuel str n) (skipInBuffer V (fuel + 1) str n) := by
  induction fuel generalizing str n with
  | zero => exact .error _
  | succ fuel ih => exact (Improves.refl _).bind fun b => .ite ih (.refl _)

theorem hideInBuffer_improves {str n : ℕ} :
    Improves (hideInBuffer hide V fuel str n) (hideInBuffer hide V (fuel + 1) str n) :=
  (Improves.refl _).bind fun _ => .ite (skipInBuffer_improves.bind fun _ => .refl _) (.refl _)

theorem outBuffer_improves {str n : ℕ} :
    Improves (outBuffer hide V fuel str n) (outBuffer hide V (fuel + 1) str n) := by
  induction fuel generalizing str n with
  | zero => exact .error _
  | succ fuel ih =>
    refine .ite (hideInBuffer_improves.bind ?_) (.refl _)
    rintro (_ | ⟨str, n⟩)
    · exact .refl _
    · exact (Improves.refl _).bind fun b => ih.bind fun text => .refl _

end UART

end Eterna
