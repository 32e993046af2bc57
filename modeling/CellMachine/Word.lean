/-!
Signed 64-bit words: the integers from `-2 ^ 63` up to below `2 ^ 63`. Registers
and integer payloads are words. Word arithmetic wraps around, also in
`sp + 1` and so in the depth of the stack. That is how a release build computes;
a build with overflow checks would stop where a result does not fit. The
operations with a question mark are exact instead, and have no result where the
others would wrap. An address is a word, and it designates a position of a bank only
when it is one of the bank's indices.
-/

namespace CellMachine

/-- The integers that a word can hold. -/
def Word.Fits (n : Int) : Prop :=
  -0x8000000000000000 ≤ n ∧ n < 0x8000000000000000

structure Word where
  toInt : Int
  fits : Word.Fits toInt
deriving DecidableEq, Repr

namespace Word

instance (n : Int) : Decidable (Fits n) :=
  inferInstanceAs (Decidable (_ ∧ _))

theorem fits_bmod (n : Int) : Fits (n.bmod 0x10000000000000000) := by
  have lower := @Int.le_bmod n 0x10000000000000000 (by decide)
  have upper := @Int.bmod_lt n 0x10000000000000000 (by decide)
  unfold Fits
  omega

/-- The word that agrees with an integer up to a multiple of `2 ^ 64`. -/
def wrap (n : Int) : Word := ⟨n.bmod 0x10000000000000000, fits_bmod n⟩

instance (n : Nat) : OfNat Word n := ⟨wrap n⟩

instance : Neg Word := ⟨fun a => wrap (-a.toInt)⟩

instance : Add Word := ⟨fun a b => wrap (a.toInt + b.toInt)⟩

instance : Sub Word := ⟨fun a b => wrap (a.toInt - b.toInt)⟩

instance : LE Word := ⟨fun a b => a.toInt ≤ b.toInt⟩

instance : LT Word := ⟨fun a b => a.toInt < b.toInt⟩

instance (a b : Word) : Decidable (a ≤ b) := Int.decLe _ _

instance (a b : Word) : Decidable (a < b) := Int.decLt _ _

instance : ToString Word := ⟨fun a => toString a.toInt⟩

/-- The word that holds exactly this integer. -/
def ofInt? (n : Int) : Option Word :=
  if h : Fits n then some ⟨n, h⟩ else none

/-- The word that holds exactly this natural number. -/
def ofNat? (n : Nat) : Option Word := ofInt? n

def add? (a b : Word) : Option Word := ofInt? (a.toInt + b.toInt)

def sub? (a b : Word) : Option Word := ofInt? (a.toInt - b.toInt)

/-- The position that an address designates in a bank of `size` places. -/
def index? (address : Word) (size : Nat) : Option (Fin size) :=
  if h : 0 ≤ address.toInt ∧ address.toInt.toNat < size then
    some ⟨address.toInt.toNat, h.2⟩
  else
    none

theorem le_iff {a b : Word} : a ≤ b ↔ a.toInt ≤ b.toInt := Iff.rfl

theorem lt_iff {a b : Word} : a < b ↔ a.toInt < b.toInt := Iff.rfl

theorem toInt_wrap {n : Int} (h : Fits n) : (wrap n).toInt = n :=
  Int.bmod_eq_of_le h.1 h.2

theorem toInt_add {a b : Word} (h : Fits (a.toInt + b.toInt)) :
    (a + b).toInt = a.toInt + b.toInt :=
  toInt_wrap h

theorem toInt_sub {a b : Word} (h : Fits (a.toInt - b.toInt)) :
    (a - b).toInt = a.toInt - b.toInt :=
  toInt_wrap h

theorem ofInt?_eq_some_iff {n : Int} {w : Word} :
    ofInt? n = some w ↔ w.toInt = n := by
  unfold ofInt?
  constructor
  · intro h
    split at h
    next => cases h; rfl
    next => cases h
  · intro h
    subst h
    exact dif_pos w.fits

theorem ofInt?_eq_none_iff {n : Int} : ofInt? n = none ↔ ¬ Fits n := by
  simp [ofInt?]

theorem index?_eq_some_iff {address : Word} {size : Nat} {i : Fin size} :
    index? address size = some i ↔ address.toInt = i.val := by
  unfold index?
  constructor
  · intro h
    split at h
    next inside =>
      cases h
      exact (Int.toNat_of_nonneg inside.1).symm
    next => cases h
  · intro h
    have inside : 0 ≤ address.toInt ∧ address.toInt.toNat < size := by
      have := i.isLt
      omega
    rw [dif_pos inside]
    exact congrArg some (Fin.ext (by simp [h]))

end Word

end CellMachine
