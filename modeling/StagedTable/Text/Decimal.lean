/-!
# Decimal numerals

The digits of a number, with a sign in front.  Numbers are written without a plus sign and without
leading zeros; a numeral that is read may have both.  What does not fit into 64 bits is not read.

Reading a number that was written gives the number (`int64?_toString`).
-/

namespace StagedTable.Text

def digits? (cs : List Char) : Option Nat :=
  if !cs.isEmpty && cs.all Char.isDigit then some (Nat.ofDigitChars 10 cs 0) else none

def signed? : List Char → Option Int
  | '-' :: cs => (digits? cs).map Int.negOfNat
  | '+' :: cs => (digits? cs).map Int.ofNat
  | cs => (digits? cs).map Int.ofNat

def int64? (s : String) : Option Int64 :=
  (signed? s.toList).bind fun x =>
    if Int64.minValue.toInt ≤ x ∧ x ≤ Int64.maxValue.toInt then some (.ofInt x) else none

theorem isDigit_of_mem_toDigits {n : Nat} {c : Char} (h : c ∈ Nat.toDigits 10 n) : c.isDigit :=
  Nat.isDigit_of_mem_toDigits (by omega) (Nat.le_refl 10) h

theorem digits?_toDigits (n : Nat) : digits? (Nat.toDigits 10 n) = some n := by
  have hall : (Nat.toDigits 10 n).all Char.isDigit = true :=
    List.all_eq_true.2 fun _ => isDigit_of_mem_toDigits
  have hne : (Nat.toDigits 10 n).isEmpty = false :=
    List.isEmpty_eq_false_iff.2 Nat.toDigits_ne_nil
  rw [digits?, hall, hne, Nat.ofDigitChars_ten_toDigits]
  rfl

/-- digits without a sign -/
theorem signed?_of_isDigit {cs : List Char} (h : ∀ c ∈ cs, c.isDigit) :
    signed? cs = (digits? cs).map Int.ofNat := by
  unfold signed?
  split
  · exact absurd (h '-' List.mem_cons_self) (by decide)
  · exact absurd (h '+' List.mem_cons_self) (by decide)
  · rfl

theorem signed?_toString (x : Int) : signed? (toString x).toList = some x := by
  cases x with
  | ofNat n =>
    show signed? (Nat.repr n).toList = _
    rw [Nat.toList_repr, signed?_of_isDigit fun _ => isDigit_of_mem_toDigits, digits?_toDigits]
    rfl
  | negSucc n =>
    show signed? ("-" ++ Nat.repr (n + 1)).toList = _
    rw [String.toList_append, Nat.toList_repr]
    show (digits? (Nat.toDigits 10 (n + 1))).map Int.negOfNat = _
    rw [digits?_toDigits]
    rfl

/-- **What was written is read back.** -/
theorem int64?_toString (x : Int64) : int64? (toString x.toInt) = some x := by
  rw [int64?, signed?_toString, Option.bind_some, if_pos ⟨x.minValue_le_toInt, x.toInt_le⟩,
    Int64.ofInt_toInt]

end StagedTable.Text
