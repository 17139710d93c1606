import Mathlib.Algebra.Group.Nat.Defs
import Mathlib.Order.Monotone.Basic

/-!
# Texts in the order of their bytes

Texts are compared character by character.  Written in UTF-8 they can be compared byte by byte as
well, and that is the same order (`Text.bytes_le_iff`).

A character is written as a first byte and up to three bytes that follow it.  Each of these holds a
digit of the character's number to base 64, and the first byte holds what is left, above a start of
its own.

* `Text.digits`          a number in so many bytes.  Of two numbers in equally many bytes the lower
                         one comes first (`digits_lt`);
* `Text.Written`         a number in as few bytes as it takes.  Of two such numbers the one in fewer
                         bytes comes first, because the starts leave room for each other
                         (`Written.lt`).
-/

namespace StagedTable.Text

/-- the bytes of a text in UTF-8 -/
def bytes (s : String) : List UInt8 := s.toUTF8.data.toList

theorem bytes_eq (s : String) : bytes s = s.toList.flatMap String.utf8EncodeChar := by
  rw [bytes, String.toUTF8_eq_toByteArray, ← String.utf8Encode_toList]
  exact List.toList_data_toByteArray

/-! ## numbers in bytes -/

/-- a byte that follows the first one: the last digit of the number -/
def follow (v : Nat) : UInt8 := .ofNat (v % 64 + 128)

/-- the number `v` in a first byte, which counts from `start`, and `n` bytes that follow it -/
def digits (start : Nat) : Nat → Nat → List UInt8
  | 0, v => [.ofNat (v + start)]
  | n + 1, v => digits start n (v / 64) ++ [follow v]

theorem cons_lt_cons_of_lt {a b : Nat} (h : a < b) (hb : b < 256) (s t : List UInt8) :
    UInt8.ofNat a :: s < UInt8.ofNat b :: t := by
  refine List.cons_lt_cons_iff.2 (.inl ?_)
  rw [UInt8.lt_iff_toNat_lt, UInt8.toNat_ofNat', UInt8.toNat_ofNat']
  omega

theorem digits_lt {start n x y : Nat} (h : x < y) (hy : y / 64 ^ n + start < 256)
    (s t : List UInt8) : digits start n x ++ s < digits start n y ++ t := by
  -- the digits before the last one decide, unless they are equal
  induction n generalizing x y s t with
  | zero =>
    rw [Nat.pow_zero, Nat.div_one] at hy
    exact cons_lt_cons_of_lt (by omega) hy s t
  | succ n ih =>
    rw [digits, digits, List.append_assoc, List.append_assoc]
    have hdigits : x / 64 < y / 64 ∨ x / 64 = y / 64 ∧ x % 64 < y % 64 := by omega
    rcases hdigits with hlt | ⟨heq, hlt⟩
    · refine ih hlt ?_ _ _
      rw [Nat.div_div_eq_div_mul, ← Nat.pow_succ']
      exact hy
    · rw [heq]
      exact List.append_left_lt (cons_lt_cons_of_lt (by omega) (by omega) s t)

theorem digits_eq_cons (start n v : Nat) :
    ∃ rest, digits start n v = .ofNat (v / 64 ^ n + start) :: rest := by
  induction n generalizing v with
  | zero => exact ⟨[], by rw [digits, Nat.pow_zero, Nat.div_one]⟩
  | succ n ih =>
    obtain ⟨rest, hrest⟩ := ih (v / 64)
    refine ⟨rest ++ [follow v], ?_⟩
    rw [digits, hrest, Nat.div_div_eq_div_mul, ← Nat.pow_succ', List.cons_append]

/-! ## as few bytes as it takes -/

/-- where the first byte starts if so many follow -/
def start : Nat → Nat
  | 0 => 0
  | 1 => 192
  | 2 => 224
  | 3 => 240
  | _ => 248

/-- the numbers that so many following bytes are enough for -/
def limit : Nat → Nat
  | 0 => 128
  | 1 => 2048
  | 2 => 65536
  | _ => 1114112

theorem start_le_start {n m : Nat} (h : n ≤ m) : start n ≤ start m := by
  refine monotone_nat_of_le_succ (fun k => ?_) h
  rcases k with _ | _ | _ | _ | k <;> simp [start]

/-- the number, with as few following bytes as are enough for it -/
structure Written (n v : Nat) (bs : List UInt8) : Prop where
  eq_digits : bs = digits (start n) n v
  le_three : n ≤ 3
  lt_limit : v < limit n
  limit_le : ∀ m < n, limit m ≤ v

namespace Written
variable {n m x y : Nat} {bs cs : List UInt8}

/-- the first byte stays below the start of a longer number -/
theorem first_lt (h : Written n x bs) : x / 64 ^ n + start n < start (n + 1) := by
  obtain ⟨_, hn, hlt, _⟩ := h
  rcases n with _ | _ | _ | _ | n
  all_goals
    simp only [limit, start] at *
    omega

theorem lt (hx : Written n x bs) (hy : Written m y cs) (h : x < y) (s t : List UInt8) :
    bs ++ s < cs ++ t := by
  have hbound : y / 64 ^ m + start m < 256 :=
    Nat.lt_of_lt_of_le hy.first_lt (Nat.le_trans (start_le_start (Nat.succ_le_succ hy.le_three))
      (by decide))
  rcases Nat.lt_trichotomy n m with hnm | rfl | hmn
  · obtain ⟨xs, hxs⟩ := digits_eq_cons (start n) n x
    obtain ⟨ys, hys⟩ := digits_eq_cons (start m) m y
    rw [hx.eq_digits, hy.eq_digits, hxs, hys]
    refine cons_lt_cons_of_lt ?_ hbound _ _
    calc x / 64 ^ n + start n < start (n + 1) := hx.first_lt
      _ ≤ start m := start_le_start hnm
      _ ≤ y / 64 ^ m + start m := Nat.le_add_left _ _
  · rw [hx.eq_digits, hy.eq_digits]
    exact digits_lt h hbound s t
  · have hlow := hx.limit_le m hmn
    have hhigh := hy.lt_limit
    omega

end Written

/-! ## characters and texts -/

theorem toNat_lt (c : Char) : c.toNat < 1114112 := by
  rcases c.valid with h | ⟨_, h⟩
  · exact Nat.lt_trans h (by decide)
  · exact h

theorem written_encode (c : Char) : ∃ n, Written n c.toNat (String.utf8EncodeChar c) := by
  have hmax := toNat_lt c
  rw [← Char.toNat_val] at *
  unfold String.utf8EncodeChar
  generalize c.val.toNat = v at *
  simp only
  split
  · next h => exact ⟨0, rfl, by decide, Nat.lt_succ_of_le h, fun m hm => nomatch hm⟩
  · next h0 =>
    have hlimit0 : limit 0 ≤ v := Nat.not_le.1 h0
    split
    · next h =>
      have hfirst : v / 64 % 32 = v / 64 := by omega
      rw [hfirst]
      refine ⟨1, rfl, by decide, Nat.lt_succ_of_le h, fun m hm => ?_⟩
      obtain rfl : m = 0 := by omega
      exact hlimit0
    · next h1 =>
      have hlimit1 : limit 1 ≤ v := Nat.not_le.1 h1
      split
      · next h =>
        have hfirst : v / 4096 % 16 = v / 64 / 64 := by omega
        rw [hfirst]
        refine ⟨2, rfl, by decide, Nat.lt_succ_of_le h, fun m hm => ?_⟩
        obtain rfl | rfl : m = 0 ∨ m = 1 := by omega
        · exact hlimit0
        · exact hlimit1
      · next h2 =>
        have hlimit2 : limit 2 ≤ v := Nat.not_le.1 h2
        have hfirst : v / 262144 % 8 = v / 64 / 64 / 64 := by omega
        have hsecond : v / 4096 = v / 64 / 64 := by omega
        rw [hfirst, hsecond]
        refine ⟨3, rfl, by decide, hmax, fun m hm => ?_⟩
        obtain rfl | rfl | rfl : m = 0 ∨ m = 1 ∨ m = 2 := by omega
        · exact hlimit0
        · exact hlimit1
        · exact hlimit2

/-- a lower character comes first, whatever is written behind it -/
theorem encode_lt {c d : Char} (h : c < d) (s t : List UInt8) :
    String.utf8EncodeChar c ++ s < String.utf8EncodeChar d ++ t := by
  obtain ⟨n, hc⟩ := written_encode c
  obtain ⟨m, hd⟩ := written_encode d
  exact hc.lt hd h s t

theorem flatMap_encode_lt {a b : List Char} (h : a < b) :
    a.flatMap String.utf8EncodeChar < b.flatMap String.utf8EncodeChar := by
  induction a generalizing b with
  | nil =>
    cases b with
    | nil => exact absurd h (List.lt_irrefl [])
    | cons d b =>
      obtain ⟨x, xs, hx⟩ := List.exists_cons_of_ne_nil (String.utf8EncodeChar_ne_nil (c := d))
      rw [List.flatMap_cons, hx]
      exact List.nil_lt_cons _ _
  | cons c a ih =>
    cases b with
    | nil => exact absurd h (List.not_lt_nil _)
    | cons d b =>
      rw [List.flatMap_cons, List.flatMap_cons]
      rcases List.cons_lt_cons_iff.1 h with hcd | ⟨rfl, hab⟩
      · exact encode_lt hcd _ _
      · exact List.append_left_lt (ih hab)

theorem bytes_lt {a b : String} (h : a < b) : bytes a < bytes b := by
  rw [bytes_eq, bytes_eq]
  exact flatMap_encode_lt h

/-- **The order of texts is the order of their bytes.** -/
theorem bytes_le_iff {a b : String} : bytes a ≤ bytes b ↔ a ≤ b := by
  rw [← List.not_lt, ← String.not_lt]
  constructor
  · exact mt bytes_lt
  · intro h hlt
    rcases Decidable.em (a < b) with hab | hab
    · exact List.lt_irrefl _ (List.lt_trans (bytes_lt hab) hlt)
    · rw [String.le_antisymm (String.not_lt.1 h) (String.not_lt.1 hab)] at hlt
      exact List.lt_irrefl _ hlt

end StagedTable.Text
