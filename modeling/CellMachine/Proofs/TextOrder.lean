import CellMachine.InstructionSet

/-!
Texts in the order of their bytes. A character is encoded as a leading byte, which tells how many
bytes follow, and bytes of six bits each. The greater of two characters has the greater leading
byte or, after the same one, the greater bits, so texts compare byte by byte as they compare
character by character.
-/

namespace CellMachine.Utf8

/-- The bytes of a text. -/
def bytes (s : String) : List UInt8 := s.toByteArray.data.toList

theorem bytes_eq_flatMap (s : String) : bytes s = s.toList.flatMap String.utf8EncodeChar := by
  conv => lhs; rw [← String.ofList_toList (s := s)]
  rw [bytes, String.toByteArray_ofList, List.utf8Encode, List.data_toByteArray]

/-! ### One character -/

/-- A number without its last `n` groups of six bits. -/
def above : Nat → Nat → Nat
  | 0, v => v
  | n + 1, v => above n v / 64

/-- The last `n` groups of six bits, as the bytes that follow a leading byte. -/
def trail : Nat → Nat → List UInt8
  | 0, _ => []
  | n + 1, v => UInt8.ofNat (above n v % 64 + 128) :: trail n v

/-- How many bytes follow the leading byte of a character. -/
def following (v : Nat) : Nat :=
  if v ≤ 0x7f then 0 else if v ≤ 0x7ff then 1 else if v ≤ 0xffff then 2 else 3

/-- The mark that a leading byte has for the number of bytes to follow. -/
def mark : Nat → Nat
  | 0 => 0
  | 1 => 0xc0
  | 2 => 0xe0
  | _ => 0xf0

/-- The leading byte, as a number. -/
def lead (v : Nat) : Nat := above (following v) v + mark (following v)

theorem val_lt (c : Char) : c.val.toNat < 0x110000 := by
  have h := c.valid
  unfold UInt32.isValidChar Nat.isValidChar at h
  omega

/-- The four ranges of code points, with the leading byte in each. -/
theorem lead_cases {v : Nat} (h : v < 0x110000) :
    v ≤ 0x7f ∧ following v = 0 ∧ lead v = v ∨
    (0x7f < v ∧ v ≤ 0x7ff) ∧ following v = 1 ∧ lead v = v / 64 % 32 + 0xc0 ∨
    (0x7ff < v ∧ v ≤ 0xffff) ∧ following v = 2 ∧ lead v = v / 4096 % 16 + 0xe0 ∨
    (0xffff < v ∧ v < 0x110000) ∧ following v = 3 ∧ lead v = v / 262144 % 8 + 0xf0 := by
  unfold lead following
  repeat' split
  all_goals
    simp only [above, mark, true_and]
    omega

theorem utf8EncodeChar_eq (c : Char) :
    String.utf8EncodeChar c =
      UInt8.ofNat (lead c.val.toNat) :: trail (following c.val.toNat) c.val.toNat := by
  have hranges := lead_cases (val_lt c)
  unfold String.utf8EncodeChar
  generalize c.val.toNat = v at hranges
  obtain ⟨h, hn, hl⟩ | ⟨h, hn, hl⟩ | ⟨h, hn, hl⟩ | ⟨h, hn, hl⟩ := hranges
  · rw [hn, hl, if_pos h]
    rfl
  · rw [hn, hl, if_neg (by omega), if_pos h.2]
    rfl
  · rw [hn, hl, if_neg (by omega), if_neg (by omega), if_pos h.2]
    rfl
  · rw [hn, hl, if_neg (by omega), if_neg (by omega), if_neg (by omega)]
    simp only [trail, above, Nat.div_div_eq_div_mul, Nat.reduceMul]

theorem ofNat_cons_lt {a b : Nat} (h : a < b) (hb : b < 256) (s t : List UInt8) :
    UInt8.ofNat a :: s < UInt8.ofNat b :: t := by
  rw [List.cons_lt_cons_iff, UInt8.lt_iff_toNat_lt, UInt8.toNat_ofNat', UInt8.toNat_ofNat']
  omega

theorem above_le {v w : Nat} (h : v ≤ w) (n : Nat) : above n v ≤ above n w := by
  induction n with
  | zero => exact h
  | succ n ih => exact Nat.div_le_div_right ih

/-- Numbers that agree above their last `n` groups are told apart by these groups. -/
theorem trail_append_lt {n v w : Nat} (h : v < w) (hsame : above n v = above n w)
    (s t : List UInt8) : trail n v ++ s < trail n w ++ t := by
  induction n with
  | zero => exact absurd hsame (Nat.ne_of_lt h)
  | succ n ih =>
      have hle := above_le (Nat.le_of_lt h) n
      rw [trail, trail, List.cons_append, List.cons_append]
      by_cases heq : above n v = above n w
      · rw [heq, List.cons_lt_cons_iff]
        exact .inr ⟨rfl, ih heq⟩
      · rw [above, above] at hsame
        exact ofNat_cons_lt (by omega) (by omega) _ _

/-- The encoding of a greater character is greater whatever follows the two, so neither is the
beginning of the other. -/
theorem utf8EncodeChar_append_lt {c d : Char} (h : c < d) (s t : List UInt8) :
    String.utf8EncodeChar c ++ s < String.utf8EncodeChar d ++ t := by
  have hvalue : c.val.toNat < d.val.toNat := h
  have hc := lead_cases (val_lt c)
  have hd := lead_cases (val_lt d)
  rw [utf8EncodeChar_eq, utf8EncodeChar_eq, List.cons_append, List.cons_append]
  generalize c.val.toNat = v at *
  generalize d.val.toNat = w at *
  by_cases hsame : lead v = lead w
  · -- the leading byte tells the range, so equal ones are followed by as many bytes
    have hn : following v = following w := by omega
    rw [hsame, hn, List.cons_lt_cons_iff]
    rw [lead, lead, hn] at hsame
    exact .inr ⟨rfl, trail_append_lt hvalue (Nat.add_right_cancel hsame) s t⟩
  · exact ofNat_cons_lt (by omega) (by omega) _ _

/-! ### Texts -/

theorem flatMap_utf8EncodeChar_lt {l k : List Char} (h : l < k) :
    l.flatMap String.utf8EncodeChar < k.flatMap String.utf8EncodeChar := by
  induction h with
  | nil =>
      rw [List.flatMap_cons, utf8EncodeChar_eq]
      exact List.nil_lt_cons _ _
  | cons _ ih =>
      rw [List.flatMap_cons, List.flatMap_cons]
      exact List.append_left_lt ih
  | rel h =>
      rw [List.flatMap_cons, List.flatMap_cons]
      exact utf8EncodeChar_append_lt h _ _

theorem bytes_lt_bytes {s t : String} (h : s < t) : bytes s < bytes t := by
  rw [bytes_eq_flatMap, bytes_eq_flatMap]
  exact flatMap_utf8EncodeChar_lt h

/-- Texts are in the order of their bytes. -/
theorem bytes_lt_bytes_iff {s t : String} : bytes s < bytes t ↔ s < t := by
  refine ⟨fun h => ?_, bytes_lt_bytes⟩
  by_cases hlt : s < t
  · exact hlt
  by_cases hgt : t < s
  · exact absurd (bytes_lt_bytes hgt) (List.lt_asymm h)
  · rw [String.le_antisymm hgt hlt] at h
    exact absurd h (List.lt_irrefl _)

theorem bytes_le_bytes_iff {s t : String} : bytes s ≤ bytes t ↔ s ≤ t := by
  rw [← List.not_lt, ← String.not_lt, bytes_lt_bytes_iff]

end CellMachine.Utf8
