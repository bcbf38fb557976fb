import Mathlib

/-! # URL-safe base64

`encode` writes three bytes as four characters of the URL-safe alphabet and pads the last
group; `decode` reads it back, with or without the padding, and refuses any other character.
`decode_encode` is the round trip. -/

namespace Base64

def alphabet : List Char :=
  "ABCDEFGHIJKLMNOPQRSTUVWXYZabcdefghijklmnopqrstuvwxyz0123456789-_".toList

/-- The character of the digit `d < 64`. -/
def digit (d : ℕ) : Char := alphabet.getD d '='

/-- The digit of a character. -/
def value (c : Char) : Option ℕ := if c ∈ alphabet then some (alphabet.idxOf c) else none

theorem value_digit {d : ℕ} (h : d < 64) : value (digit d) = some d :=
  (by decide +kernel : ∀ d < 64, value (digit d) = some d) d h

theorem digit_ne_pad {d : ℕ} (h : d < 64) : digit d ≠ '=' :=
  (by decide +kernel : ∀ d < 64, digit d ≠ '=') d h

/-- Encode a byte string given as numbers below 256. -/
def encode : List UInt8 → List Char
  | a :: b :: c :: rest =>
      let n := a.toNat * 65536 + b.toNat * 256 + c.toNat
      digit (n / 262144) :: digit (n / 4096 % 64) :: digit (n / 64 % 64) :: digit (n % 64) ::
        encode rest
  | [a, b] =>
      let n := a.toNat * 65536 + b.toNat * 256
      [digit (n / 262144), digit (n / 4096 % 64), digit (n / 64 % 64), '=']
  | [a] =>
      let n := a.toNat * 65536
      [digit (n / 262144), digit (n / 4096 % 64), '=', '=']
  | [] => []

/-- The characters of an encoded text. -/
theorem encode_chars {bs : List UInt8} {c : Char} (hc : c ∈ encode bs) : c ∈ alphabet ∨ c = '=' := by
  have hdigit : ∀ d, digit d ∈ alphabet ∨ digit d = '=' := by
    intro d
    unfold digit
    by_cases hd : d < alphabet.length
    · rw [List.getD_eq_getElem _ _ hd]
      exact Or.inl (List.getElem_mem hd)
    · rw [List.getD_eq_default _ _ (by omega)]
      exact Or.inr rfl
  induction bs using encode.induct with
  | case1 a b d rest ih =>
      simp only [encode, List.mem_cons] at hc
      rcases hc with rfl | rfl | rfl | rfl | hc
      · exact hdigit _
      · exact hdigit _
      · exact hdigit _
      · exact hdigit _
      · exact ih hc
  | case2 a b =>
      simp only [encode, List.mem_cons, List.not_mem_nil, or_false] at hc
      rcases hc with rfl | rfl | rfl | rfl
      · exact hdigit _
      · exact hdigit _
      · exact hdigit _
      · exact Or.inr rfl
  | case3 a =>
      simp only [encode, List.mem_cons, List.not_mem_nil, or_false] at hc
      rcases hc with rfl | rfl | rfl | rfl
      · exact hdigit _
      · exact hdigit _
      · exact Or.inr rfl
      · exact Or.inr rfl
  | case4 => cases hc

/-- Decode a last group of two characters. -/
def decodeTwo (p q : Char) : Option (List UInt8) := do
  let x ← value p
  let y ← value q
  some [UInt8.ofNat ((x * 64 + y) / 16)]

/-- Decode a last group of three characters. -/
def decodeThree (p q r : Char) : Option (List UInt8) := do
  let x ← value p
  let y ← value q
  let z ← value r
  let n := x * 4096 + y * 64 + z
  some [UInt8.ofNat (n / 1024), UInt8.ofNat (n / 4 % 256)]

def decode : List Char → Option (List UInt8)
  | [] => some []
  | [_] => none
  | [p, q] => decodeTwo p q
  | [p, q, r] => decodeThree p q r
  | p :: q :: r :: s :: rest =>
      if s = '=' ∧ rest = [] then
        if r = '=' then decodeTwo p q else decodeThree p q r
      else do
        let x ← value p
        let y ← value q
        let z ← value r
        let w ← value s
        let n := x * 262144 + y * 4096 + z * 64 + w
        let bs ← decode rest
        some (UInt8.ofNat (n / 65536) :: UInt8.ofNat (n / 256 % 256) :: UInt8.ofNat (n % 256) :: bs)

theorem ofNat_toNat_eq {a : UInt8} {n : ℕ} (h : n = a.toNat) : UInt8.ofNat n = a := by
  rw [h, UInt8.ofNat_toNat]

/-- **Round trip.** -/
theorem decode_encode (bs : List UInt8) : decode (encode bs) = some bs := by
  induction bs using encode.induct with
  | case1 a b c rest ih =>
      have ha := a.toNat_lt
      have hb := b.toNat_lt
      have hc := c.toNat_lt
      obtain ⟨n, e⟩ : ∃ n, n = a.toNat * 65536 + b.toNat * 256 + c.toNat := ⟨_, rfl⟩
      have hpad : digit (n % 64) ≠ '=' := digit_ne_pad (by omega)
      have hn : n / 262144 * 262144 + n / 4096 % 64 * 4096 + n / 64 % 64 * 64 + n % 64 = n := by
        omega
      simp only [encode, decode, hpad, false_and, if_false, ih, ← e,
        value_digit (show n / 262144 < 64 by omega), value_digit (show n / 4096 % 64 < 64 by omega),
        value_digit (show n / 64 % 64 < 64 by omega), value_digit (show n % 64 < 64 by omega),
        Option.bind_eq_bind, Option.bind_some, hn]
      rw [ofNat_toNat_eq (a := a) (by omega), ofNat_toNat_eq (a := b) (by omega),
        ofNat_toNat_eq (a := c) (by omega)]
  | case2 a b =>
      have ha := a.toNat_lt
      have hb := b.toNat_lt
      obtain ⟨n, e⟩ : ∃ n, n = a.toNat * 65536 + b.toNat * 256 := ⟨_, rfl⟩
      have hpad : digit (n / 64 % 64) ≠ '=' := digit_ne_pad (by omega)
      simp only [encode, decode, decodeThree, and_self, if_true, hpad, if_false, ← e,
        value_digit (show n / 262144 < 64 by omega), value_digit (show n / 4096 % 64 < 64 by omega),
        value_digit (show n / 64 % 64 < 64 by omega), Option.bind_eq_bind, Option.bind_some]
      rw [ofNat_toNat_eq (a := a) (by omega), ofNat_toNat_eq (a := b) (by omega)]
  | case3 a =>
      have ha := a.toNat_lt
      obtain ⟨n, e⟩ : ∃ n, n = a.toNat * 65536 := ⟨_, rfl⟩
      simp only [encode, decode, decodeTwo, and_self, if_true, ← e,
        value_digit (show n / 262144 < 64 by omega), value_digit (show n / 4096 % 64 < 64 by omega),
        Option.bind_eq_bind, Option.bind_some]
      rw [ofNat_toNat_eq (a := a) (by omega)]
  | case4 => rfl

end Base64
