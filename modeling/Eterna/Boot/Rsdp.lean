import Eterna.Library.ByteMemory
import Eterna.Library.Loops
import Eterna.Memory.Common

/-!
# The search for the RSDP

The bootloader looks for the ACPI 2.0 table among the entries of the configuration table that the
firmware has left.  `CompareGuid` returns zero for equal GUIDs, and the loop advances both its index
and the pointer to the table.

* `compareGuid_eq_zero_iff` : what `CompareGuid` says;
* `search_inspects` : the entries that the loop looks at, which are not those in front of it;
* `finds_rsdp_iff` : the tables for which the search is right nonetheless.
-/

namespace Eterna

open ByteMemory Loops

/-! ### The search -/

/-- `EFI_GUID`. -/
structure Guid where
  /-- `Data1`. -/
  data1 : BitVec 32
  /-- `Data2`. -/
  data2 : BitVec 16
  /-- `Data3`. -/
  data3 : BitVec 16
  /-- The bytes of `Data4`, the first one least significant. -/
  data4 : BitVec 64
  deriving DecidableEq

/-- `ACPI_20_TABLE_GUID`. -/
def acpi20TableGuid : Guid := ⟨0x8868e871, 0xe4f1, 0x11d3, 0x81883cc7800022bc⟩

/-- `CompareGuid`, which compares 32 bits at a time. -/
def compareGuid (guid1 guid2 : Guid) : ℤ :=
  let r := guid1.data1 - guid2.data1
  let r := r ||| ((guid1.data3 ++ guid1.data2) - (guid2.data3 ++ guid2.data2))
  let r := r ||| (guid1.data4.extractLsb' 0 32 - guid2.data4.extractLsb' 0 32)
  let r := r ||| (guid1.data4.extractLsb' 32 32 - guid2.data4.extractLsb' 32 32)
  r.toInt

/-- `EFI_CONFIGURATION_TABLE`. -/
structure ConfigurationTable where
  /-- `VendorGuid`. -/
  vendorGuid : Guid
  /-- `VendorTable`. -/
  vendorTable : ℕ

/-- `strcmp` of the bootloader, for the bytes at two pointers. -/
def strcmp (a b : ℕ → UInt8) : ℕ → ℕ
  | 0 => 1
  | length + 1 => if a 0 ≠ b 0 then 0 else strcmp (fun i => a (i + 1)) (fun i => b (i + 1)) length

/-- `"RSD PTR "`. -/
def signature : List UInt8 := [0x52, 0x53, 0x44, 0x20, 0x50, 0x54, 0x52, 0x20]

/-- The bytes at a pointer. -/
def bytesAt (M : Memory) (p i : ℕ) : UInt8 := M (add64 p i)

/-- The sum of the first 33 bytes of a table. -/
def rsdpSum (M : Memory) (vendorTable : ℕ) : ℕ :=
  forRange 0 33 (fun i sum => add64 sum (bytesAt M vendorTable i).toNat) 0

/-- The variables of the loop. -/
structure Search where
  /-- The entry that `ConfigTable` points to. -/
  configTable : ℕ
  /-- `rsdp`. -/
  rsdp : ℕ
  /-- The entries that have been looked at. -/
  inspected : List ℕ

/-- One turn of the loop.  `table` has the entries of the configuration table, and what follows
them in memory. -/
def searchTurn (table : ℕ → ConfigurationTable) (M : Memory) (index : ℕ) (s : Search) : Search :=
  let inspected := s.inspected ++ [s.configTable + index]
  if compareGuid (table (s.configTable + index)).vendorGuid acpi20TableGuid ≠ 0 then
    let inspected := inspected ++ [s.configTable]
    let vendorTable := (table s.configTable).vendorTable
    if strcmp (fun i => signature.getD i 0) (bytesAt M vendorTable) 8 ≠ 0 then
      let checksum := rsdpSum M vendorTable % 2 ^ 8
      ⟨s.configTable + 1, if checksum = 0 then vendorTable else s.rsdp, inspected⟩
    else ⟨s.configTable + 1, s.rsdp, inspected⟩
  else ⟨s.configTable + 1, s.rsdp, inspected⟩

/-- The search for the RSDP in `efi_main`. -/
def search (table : ℕ → ConfigurationTable) (M : Memory) (numberOfTableEntries : ℕ) : Search :=
  forRange 0 numberOfTableEntries (searchTurn table M) ⟨0, 0, []⟩

variable {table : ℕ → ConfigurationTable} {M : Memory} {g h : Guid} {a b : ℕ → UInt8} {n k : ℕ}

/-! ### Comparing -/

theorem append_eq_iff {x x' y y' : BitVec 16} : x ++ y = x' ++ y' ↔ x = x' ∧ y = y' := by
  refine ⟨fun heq => ⟨?_, ?_⟩, fun ⟨hx, hy⟩ => hx ▸ hy ▸ rfl⟩
  · rw [← BitVec.extractLsb'_append_eq_left (a := x) (b := y), heq,
      BitVec.extractLsb'_append_eq_left]
  · rw [← BitVec.extractLsb'_append_eq_right (a := x) (b := y), heq,
      BitVec.extractLsb'_append_eq_right]

theorem eq_of_halves {x y : BitVec 64} (hlow : x.extractLsb' 0 32 = y.extractLsb' 0 32)
    (hhigh : x.extractLsb' 32 32 = y.extractLsb' 32 32) : x = y := by
  simp only [BitVec.toNat_eq, BitVec.extractLsb'_toNat, Nat.shiftRight_eq_div_pow] at *
  omega

/-- **`CompareGuid` returns zero for equal GUIDs.** -/
theorem compareGuid_eq_zero_iff : compareGuid g h = 0 ↔ g = h := by
  have hzero : ∀ r : BitVec 32, r.toInt = 0 ↔ r = 0#32 := fun r => by
    rw [← BitVec.toInt_inj]
    rfl
  have hsub : ∀ x y : BitVec 32, x - y = 0#32 ↔ x = y := by grind
  rw [compareGuid, hzero]
  simp only [BitVec.or_eq_zero_iff, hsub, append_eq_iff]
  constructor
  · rintro ⟨⟨⟨hfirst, hthird, hsecond⟩, hlow⟩, hhigh⟩
    have hlast := eq_of_halves hlow hhigh
    cases g
    cases h
    simp_all
  · rintro rfl
    simp

theorem strcmp_ne_zero_iff : strcmp a b n ≠ 0 ↔ ∀ i < n, a i = b i := by
  induction n generalizing a b with
  | zero => simp [strcmp]
  | succ n ih =>
    rw [strcmp]
    split_ifs with hne
    · simp only [ne_eq, not_true_eq_false, false_iff]
      exact fun hall => hne (hall 0 (Nat.succ_pos n))
    · rw [ih, Nat.forall_lt_succ_left]
      exact (and_iff_right (not_not.1 hne)).symm

/-- A table that starts with the signature, and whose first 33 bytes sum to zero. -/
structure IsRsdp (M : Memory) (vendorTable : ℕ) : Prop where
  signed : ∀ i < 8, bytesAt M vendorTable i = signature.getD i 0
  sum : ((List.range 33).map fun i => (bytesAt M vendorTable i).toNat).sum % 2 ^ 8 = 0

instance : Decidable (IsRsdp M k) :=
  decidable_of_iff ((∀ i < 8, bytesAt M k i = signature.getD i 0) ∧
    ((List.range 33).map fun i => (bytesAt M k i).toNat).sum % 2 ^ 8 = 0)
    ⟨fun h => ⟨h.1, h.2⟩, fun h => ⟨h.signed, h.sum⟩⟩

theorem rsdpSum_mod : rsdpSum M k % 2 ^ 8 =
    ((List.range 33).map fun i => (bytesAt M k i).toNat).sum % 2 ^ 8 := by
  have hinv := @forRange_invariant ℕ (fun i sum => add64 sum (bytesAt M k i).toNat) 33
    (fun i sum => sum % 2 ^ 8 = ((List.range i).map fun i => (bytesAt M k i).toNat).sum % 2 ^ 8) 0
    rfl fun i _ sum hsum => by
      rw [List.range_succ, List.map_append, List.sum_append, add64]
      simp
      omega
  exact hinv

/-! ### Searching -/

theorem searchTurn_configTable (i : ℕ) (s : Search) :
    (searchTurn table M i s).configTable = s.configTable + 1 := by
  simp only [searchTurn]
  split_ifs <;> rfl

theorem searchTurn_inspected (i : ℕ) (s : Search) :
    (searchTurn table M i s).inspected = s.inspected ++ [s.configTable + i] ++
      if (table (s.configTable + i)).vendorGuid = acpi20TableGuid then [] else [s.configTable] := by
  simp only [searchTurn, ne_eq, compareGuid_eq_zero_iff]
  split_ifs <;> simp

theorem search_configTable : (search table M n).configTable = n :=
  forRange_invariant (fun i (s : Search) => s.configTable = i) rfl fun i _ s hs => by
    rw [searchTurn_configTable, hs]

theorem search_succ : search table M (n + 1) = searchTurn table M n (search table M n) :=
  forRange_succ _

/-- **The entries that the search looks at.** -/
theorem search_inspects : k ∈ (search table M n).inspected ↔
    ∃ i < n, k = 2 * i ∨ k = i ∧ (table (2 * i)).vendorGuid ≠ acpi20TableGuid := by
  induction n with
  | zero => simp [search, forRange]
  | succ n ih =>
    rw [search_succ, searchTurn_inspected, search_configTable, ← Nat.two_mul, List.mem_append,
      List.mem_append, ih, List.mem_singleton]
    simp only [Nat.exists_lt_succ_right]
    split_ifs with hguid <;> simp [hguid, or_assoc]

/-- The search is right: it looks at entries of the table only, and `rsdp` is set if and only if
there is such an entry with a valid table, and to the table of such an entry. -/
structure FindsRsdp (table : ℕ → ConfigurationTable) (M : Memory) (n : ℕ) : Prop where
  inside : ∀ k ∈ (search table M n).inspected, k < n
  found_iff : (search table M n).rsdp ≠ 0 ↔
    ∃ i < n, (table i).vendorGuid = acpi20TableGuid ∧ IsRsdp M (table i).vendorTable
  found : (search table M n).rsdp ≠ 0 → ∃ i < n, (table i).vendorGuid = acpi20TableGuid ∧
    IsRsdp M (table i).vendorTable ∧ (search table M n).rsdp = (table i).vendorTable

theorem isRsdp_iff : IsRsdp M k ↔
    strcmp (fun i => signature.getD i 0) (bytesAt M k) 8 ≠ 0 ∧ rsdpSum M k % 2 ^ 8 = 0 := by
  rw [strcmp_ne_zero_iff, rsdpSum_mod]
  exact ⟨fun h => ⟨fun i hi => (h.signed i hi).symm, h.sum⟩,
    fun h => ⟨fun i hi => (h.1 i hi).symm, h.2⟩⟩

theorem searchTurn_rsdp (i : ℕ) (s : Search) : (searchTurn table M i s).rsdp =
    if (table (s.configTable + i)).vendorGuid ≠ acpi20TableGuid ∧
      IsRsdp M (table s.configTable).vendorTable then (table s.configTable).vendorTable
    else s.rsdp := by
  simp only [searchTurn, isRsdp_iff, ne_eq, compareGuid_eq_zero_iff]
  split_ifs <;> simp_all

/-- The only entry is not that of ACPI 2.0, if it is valid. -/
theorem FindsRsdp.single {table : ℕ → ConfigurationTable} {M : Memory} (h : FindsRsdp table M 1)
    (hrsdp : IsRsdp M (table 0).vendorTable) :
    (table 0).vendorGuid ≠ acpi20TableGuid ∧ (table 0).vendorTable = 0 := by
  have hone : (search table M 1).rsdp = _ := searchTurn_rsdp 0 ⟨0, 0, []⟩
  have hfound := h.found_iff
  simp only [hone, hrsdp, Nat.lt_one_iff, exists_eq_left, and_true] at hfound
  by_cases hguid : (table 0).vendorGuid = acpi20TableGuid
  · exact absurd rfl (hfound.2 hguid ∘ Eq.trans (if_neg (not_not.2 hguid)))
  · exact ⟨hguid, by_contra fun hne => hguid (hfound.1 (by rwa [if_pos hguid]))⟩

/-- **The search is right** only for no entries, and for a single one that has no valid table, or
for one that is at address zero. -/
theorem finds_rsdp_iff (table : ℕ → ConfigurationTable) (M : Memory) (n : ℕ) :
    FindsRsdp table M n ↔ n = 0 ∨ n = 1 ∧ (IsRsdp M (table 0).vendorTable →
      (table 0).vendorGuid ≠ acpi20TableGuid ∧ (table 0).vendorTable = 0) := by
  have hone : (search table M 1).rsdp = _ := searchTurn_rsdp 0 ⟨0, 0, []⟩
  constructor
  · intro h
    match n with
    | 0 => exact .inl rfl
    | 1 => exact .inr ⟨rfl, h.single⟩
    | n + 2 =>
      -- the GUID of the last turn is behind the table
      have hmem : 2 * (n + 1) ∈ (search table M (n + 2)).inspected :=
        search_inspects.2 ⟨n + 1, Nat.lt_succ_self _, .inl rfl⟩
      have hlt := h.inside _ hmem
      omega
  · rintro (rfl | ⟨rfl, hvalid⟩)
    · refine ⟨fun k hk => absurd hk (List.not_mem_nil), ⟨fun hne => absurd rfl hne, ?_⟩,
        fun hne => absurd rfl hne⟩
      rintro ⟨i, hi, -⟩
      exact absurd hi (Nat.not_lt_zero i)
    · have hinside : ∀ k ∈ (search table M 1).inspected, k < 1 := fun k hk => by
        obtain ⟨i, hi, rfl | ⟨rfl, -⟩⟩ := search_inspects.1 hk
        · omega
        · exact hi
      have hzero : (search table M 1).rsdp = 0 := by
        rw [hone]
        split_ifs with hset
        · exact (hvalid hset.2).2
        · rfl
      refine ⟨hinside, ?_, fun hne => absurd hzero hne⟩
      rw [hzero]
      refine ⟨fun hne => absurd rfl hne, ?_⟩
      rintro ⟨i, hi, hguid, hrsdp⟩
      obtain rfl : i = 0 := Nat.lt_one_iff.1 hi
      exact absurd hguid (hvalid hrsdp).1

/-- A memory with an RSDP at address 8. -/
def rsdpMemory : Memory := fun x => if x < 8 then 0 else
  ([0x52, 0x53, 0x44, 0x20, 0x50, 0x54, 0x52, 0x20, 0xe1] : List UInt8).getD (x - 8) 0

/-- With the ACPI 2.0 table as the only entry, it is not found. -/
theorem acpi_table_missed : ¬ ∀ (table : ℕ → ConfigurationTable) (M : Memory) (n : ℕ),
    FindsRsdp table M n := by
  intro h
  have hvalid : IsRsdp rsdpMemory 8 := by decide
  have hfinds := h (fun _ => ⟨acpi20TableGuid, 8⟩) rsdpMemory 1
  exact (hfinds.single hvalid).1 rfl

end Eterna
