import Eterna.Serial.ColorCodes

/-!
# The driver of the serial port

`UART::out(uint8_t)` with the chip, and the other two `UART::out` on top of it.  Of `uart.cc` the
driver keeps whether it has been initialized; of the chip, the values of the line status register
are given, as the driver will read them.  What a string or a buffer is read as does not depend on
the chip.

* `Port.outBytes_sent_of_ready` : a port that is always ready sends every byte;
* `Port.length_outBytes_le` : any other sends no more;
* `out_strips_iff` : which strings are sent without their color codes, and nothing else is missing.
-/

namespace Eterna

open CStrings Outcome

/-! ### The port -/

/-- `maxSpins`, a `uint16_t`. -/
def maxSpins : ℕ := 1000000 % 2 ^ 16

/-- The driver and the chip. -/
structure Port where
  /-- `Initialized`. -/
  initialized : Bool
  /-- The values of the line status register, one for each time it is read. -/
  status : ℕ → UInt8
  /-- How often it has been read. -/
  reads : ℕ
  /-- The bytes that have been written to the data port. -/
  sent : Text

namespace Port

/-- The bit `1 << 5` of the line status register. -/
def transmitEmpty (status : UInt8) : Prop := status &&& 0b100000 ≠ 0

instance : DecidablePred transmitEmpty := fun _ => inferInstanceAs (Decidable (_ ≠ _))

/-- `while ((in8(LINE_STATUS_PORT(COM1)) & (1 << 5)) == 0 && maxSpins > 0) maxSpins--`: what is left
of `maxSpins`, and how often the register has been read then. -/
def spin (status : ℕ → UInt8) : ℕ → ℕ → ℕ × ℕ
  | 0, reads => (0, reads + 1)
  | maxSpins + 1, reads =>
    if transmitEmpty (status reads) then (maxSpins + 1, reads + 1)
    else spin status maxSpins (reads + 1)

/-- `out(uint8_t)`. -/
def outByte (port : Port) (byte : UInt8) : Port :=
  if port.initialized then
    let r := spin port.status maxSpins port.reads
    if r.1 = 0 then { port with reads := r.2 }
    else { port with reads := r.2, sent := port.sent ++ [byte] }
  else port

/-- The calls of `out(uint8_t)` for some bytes. -/
def outBytes (port : Port) (text : Text) : Port := text.foldl outByte port

/-- `out(const char*)`. -/
def out (port : Port) (hide : Bool) (V : View) (fuel str : ℕ) : Except Halt Port :=
  if port.initialized then (UART.out hide V fuel str).map port.outBytes else .ok port

/-- `out(uint8_t*, uint64_t)`. -/
def outBuffer (port : Port) (hide : Bool) (V : View) (fuel str numberOfBytes : ℕ) :
    Except Halt Port :=
  if port.initialized then (UART.outBuffer hide V fuel str numberOfBytes).map port.outBytes
  else .ok port

/-- The port is initialized and always ready. -/
structure Ready (port : Port) : Prop where
  initialized : port.initialized = true
  status : ∀ i, transmitEmpty (port.status i)

variable {port : Port} {text : Text} {byte : UInt8}

theorem outByte_of_ready (h : port.Ready) :
    port.outByte byte = { port with reads := port.reads + 1, sent := port.sent ++ [byte] } := by
  have hspin : spin port.status maxSpins port.reads = (maxSpins, port.reads + 1) :=
    if_pos (h.status port.reads)
  rw [outByte, if_pos h.initialized, hspin]
  rfl

theorem outBytes_sent_of_ready (h : port.Ready) :
    (port.outBytes text).sent = port.sent ++ text := by
  induction text generalizing port with
  | nil => simp [outBytes]
  | cons b text ih =>
    have hnext : (port.outByte b).Ready := by
      rw [outByte_of_ready h]
      exact ⟨h.initialized, h.status⟩
    have hsent : (port.outByte b).sent = port.sent ++ [b] := by rw [outByte_of_ready h]
    have hrest : ((port.outByte b).outBytes text).sent = (port.outByte b).sent ++ text := ih hnext
    rw [hsent, List.append_assoc] at hrest
    exact hrest

theorem length_outBytes_le : (port.outBytes text).sent.length ≤ port.sent.length + text.length := by
  induction text generalizing port with
  | nil => simp [outBytes]
  | cons b text ih =>
    have hbyte : (port.outByte b).sent.length ≤ port.sent.length + 1 := by
      rw [outByte]
      dsimp only
      split_ifs <;> simp
    have hrest : ((port.outByte b).outBytes text).sent.length ≤
        (port.outByte b).sent.length + text.length := ih
    rw [List.length_cons]
    exact hrest.trans (by omega)

end Port

/-! ### Strings without their color codes -/

/-- A string without what lies between an escape character and the next `m`, both included.  The
flag says that the string starts between the two. -/
def strip : Bool → Text → Text
  | _, [] => []
  | false, b :: s => if b = escape then strip true s else b :: strip false s
  | true, b :: s => strip (b ≠ chr 'm') s

/-- An escape character follows immediately on a color code. -/
def Adjoins (s : Text) : Prop :=
  ∃ before code rest, s = before ++ escape :: code ++ chr 'm' :: escape :: rest ∧ chr 'm' ∉ code

variable {s : Text} {b : UInt8}

theorem escape_ne_m : escape ≠ chr 'm' := by
  decide

theorem length_of_adjoins (h : Adjoins s) : 3 ≤ s.length := by
  obtain ⟨before, code, rest, rfl, -⟩ := h
  simp only [List.length_append, List.length_cons]
  omega

theorem adjoins_cons (h : Adjoins s) : Adjoins (b :: s) := by
  obtain ⟨before, code, rest, rfl, hcode⟩ := h
  exact ⟨b :: before, code, rest, rfl, hcode⟩

theorem adjoins_cons_iff (hb : b ≠ escape) : Adjoins (b :: s) ↔ Adjoins s := by
  refine ⟨fun ⟨before, code, rest, h, hcode⟩ => ?_, adjoins_cons⟩
  cases before with
  | nil => exact absurd (List.cons_eq_cons.1 h).1 hb
  | cons c before => exact ⟨before, code, rest, (List.cons_eq_cons.1 h).2, hcode⟩

theorem adjoins_code_iff (hb : b ≠ chr 'm') :
    Adjoins (escape :: b :: s) ↔ Adjoins (escape :: s) := by
  constructor
  · rintro ⟨_ | ⟨c, before⟩, code, rest, h, hcode⟩
    · cases code with
      | nil => exact absurd (List.cons_eq_cons.1 (List.cons_eq_cons.1 h).2).1 hb
      | cons d code =>
        refine ⟨[], code, rest, ?_, fun hm => hcode (.tail _ hm)⟩
        exact congrArg _ (List.cons_eq_cons.1 (List.cons_eq_cons.1 h).2).2
    · have htail : Adjoins (b :: s) := ⟨before, code, rest, (List.cons_eq_cons.1 h).2, hcode⟩
      by_cases hesc : b = escape
      · rwa [hesc] at htail
      · exact adjoins_cons ((adjoins_cons_iff hesc).1 htail)
  · rintro ⟨_ | ⟨c, before⟩, code, rest, h, hcode⟩
    · refine ⟨[], b :: code, rest, congrArg (fun t => escape :: b :: t) (List.cons_eq_cons.1 h).2,
        ?_⟩
      simp [hcode, Ne.symm hb]
    · obtain ⟨-, hs⟩ := List.cons_eq_cons.1 h
      exact adjoins_cons (adjoins_cons ⟨before, code, rest, hs, hcode⟩)

theorem adjoins_end_iff :
    Adjoins (escape :: chr 'm' :: s) ↔ s.head? = some escape ∨ Adjoins s := by
  constructor
  · rintro ⟨_ | ⟨c, before⟩, code, rest, h, hcode⟩
    · cases code with
      | nil =>
        refine .inl ?_
        rw [(List.cons_eq_cons.1 (List.cons_eq_cons.1 h).2).2]
        rfl
      | cons d code =>
        refine absurd ?_ hcode
        rw [(List.cons_eq_cons.1 (List.cons_eq_cons.1 h).2).1]
        exact .head _
    · refine .inr ((adjoins_cons_iff escape_ne_m.symm).1 ?_)
      exact ⟨before, code, rest, (List.cons_eq_cons.1 h).2, hcode⟩
  · rintro (h | h)
    · obtain ⟨rest, rfl⟩ : ∃ rest, s = escape :: rest := by
        cases s with
        | nil => cases h
        | cons c rest => exact ⟨rest, by rw [Option.some.inj h]⟩
      exact ⟨[], [], rest, rfl, List.not_mem_nil⟩
    · exact adjoins_cons (adjoins_cons h)

theorem escape_notMem_strip (inside : Bool) : escape ∉ strip inside s := by
  induction s generalizing inside with
  | nil => simp [strip]
  | cons b s ih =>
    cases inside with
    | true => exact ih _
    | false =>
      rw [strip]
      split_ifs with hb
      · exact ih true
      · simp [ih false, Ne.symm hb]

/-- What has been read of the last color code in each phase. -/
def Phase.opened : Phase → Text
  | .text => []
  | .code => [escape]
  | .after => [escape, chr 'm']

/-- The string goes on within a color code. -/
def Phase.inside : Phase → Bool
  | .code => true
  | _ => false

/-- What is visible of a string is what is left without its color codes, unless two of them adjoin.
-/
theorem visible_eq_strip_iff (ph : Phase) :
    (visible true ph s).map Prod.fst = strip ph.inside s ↔ ¬ Adjoins (ph.opened ++ s) := by
  induction s generalizing ph with
  | nil =>
    refine iff_of_true (by cases ph <;> rfl) fun h => ?_
    have := length_of_adjoins h
    cases ph <;> simp [Phase.opened] at this
  | cons b s ih =>
    cases ph with
    | text =>
      simp only [visible, strip, Phase.inside, Phase.opened, List.nil_append, true_and]
      by_cases hb : b = escape
      · rw [if_pos hb, if_pos hb, hb]
        exact ih .code
      · rw [if_neg hb, if_neg hb, List.map_cons, List.cons_eq_cons, and_iff_right rfl,
          adjoins_cons_iff hb]
        exact ih .text
    | code =>
      simp only [visible, strip, Phase.inside, Phase.opened, List.cons_append, List.nil_append]
      by_cases hb : b = chr 'm'
      · rw [if_pos hb, hb, decide_eq_false (by simp)]
        exact ih .after
      · rw [if_neg hb, decide_eq_true hb, adjoins_code_iff hb]
        exact ih .code
    | after =>
      simp only [visible, strip, Phase.inside, Phase.opened, List.cons_append, List.nil_append,
        List.map_cons]
      rw [adjoins_end_iff, List.head?_cons, Option.some_inj]
      by_cases hb : b = escape
      · -- the escape character is sent
        refine iff_of_false (fun h => ?_) fun h => h (.inl hb)
        rw [if_pos hb] at h
        refine escape_notMem_strip (s := s) true ?_
        rw [← h, hb]
        exact .head _
      · rw [if_neg hb, List.cons_eq_cons, and_iff_right rfl, or_iff_right hb, adjoins_cons_iff hb]
        exact ih .text

/-- Whatever returns has sent what is shown of the string. -/
theorem Port.out_sent {port port' : Port} {V : View} {c fuel : ℕ} (hport : port.Ready)
    (hs : CString V c s) (hport' : port.out true V fuel c = .ok port') :
    port'.sent = port.sent ++ shown true s := by
  rw [out, if_pos hport.initialized] at hport'
  cases htext : UART.out true V fuel c with
  | error e =>
    rw [htext] at hport'
    cases hport'
  | ok text =>
    have hshown := (UART.out_spec hs).of_ok htext
    rw [htext] at hport'
    obtain rfl := Except.ok.inj hport'
    rw [outBytes_sent_of_ready hport, hshown]

/-- **What the port sends of a string** is what is left without its color codes exactly if no escape
character follows immediately on one. -/
theorem out_strips_iff {port : Port} {V : View} {c : ℕ} (hport : port.Ready) (hs : CString V c s) :
    (∃ fuel port', port.out true V fuel c = .ok port' ∧ port'.sent = port.sent ++ strip false s ∧
      escape ∉ strip false s) ↔ ¬ Adjoins s := by
  have hout (fuel : ℕ) : port.out true V fuel c = (UART.out true V fuel c).map port.outBytes :=
    if_pos hport.initialized
  have hvisible := @visible_eq_strip_iff s .text
  constructor
  · rintro ⟨fuel, port', hport', hsent, -⟩
    rw [Port.out_sent hport hs hport'] at hsent
    exact hvisible.1 (List.append_cancel_left hsent)
  · intro hadjoins
    refine ⟨s.length + 1, port.outBytes (shown true s), ?_, ?_, escape_notMem_strip false⟩
    · rw [hout, UART.out_eq_shown hs (Nat.lt_succ_self _)]
      rfl
    · rw [Port.outBytes_sent_of_ready hport]
      exact congrArg _ (hvisible.2 hadjoins)

/-- A port that has sent nothing, on a chip that is always ready. -/
def Port.first : Port := ⟨true, fun _ => 0b100000, 0, []⟩

theorem Port.ready_first : Port.first.Ready := by
  have hready : transmitEmpty 0b100000 := by decide
  exact ⟨rfl, fun _ => hready⟩

/-- `"\033[1mA"`. -/
def boldLetter : Text := escape :: ['[', '1', 'm', 'A'].map chr

theorem out_strips_iff_bold : ∃ fuel port',
    Port.first.out true (.ofText boldLetter) fuel 0 = .ok port' ∧
      port'.sent = Port.first.sent ++ strip false boldLetter ∧ escape ∉ strip false boldLetter := by
  have hstrip : (visible true .text boldLetter).map Prod.fst = strip false boldLetter := by decide
  exact (out_strips_iff Port.ready_first (.ofText (by decide))).2
    ((visible_eq_strip_iff .text).1 hstrip)

/-- `"\033[0m\033[1mA"`: the second escape character is sent, and what
follows it. -/
theorem adjoining_code_sent : ¬ ∀ (port : Port) (V : View) (c : ℕ) (s : Text), port.Ready →
    CString V c s → ∃ fuel port', port.out true V fuel c = .ok port' ∧
      port'.sent = port.sent ++ strip false s ∧ escape ∉ strip false s := by
  intro h
  have hs : CString (.ofText (escape :: ['[', '0', 'm'].map chr ++ boldLetter)) 0 _ :=
    .ofText (by decide)
  obtain ⟨fuel, port', hport', hsent, -⟩ := h _ _ _ _ Port.ready_first hs
  rw [Port.out_sent Port.ready_first hs hport'] at hsent
  refine (visible_eq_strip_iff .text).1 (List.append_cancel_left hsent) ?_
  exact ⟨[], ['[', '0'].map chr, ['[', '1', 'm', 'A'].map chr, rfl, by decide⟩

end Eterna
