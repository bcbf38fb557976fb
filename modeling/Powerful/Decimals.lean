import Mathlib

/-! # Decimal texts, and their reading as regular expressions

`value` reads a decimal text: a sign, digits with a point among them, and a power of ten.  The
characters of such a text are digits, signs, points and the letter of the exponent
(`isNumberChar_of_value`), and the decimal text of an integer stands for that integer
(`value_toString`).

Read as a regular expression, a point stands for any character and a plus for the repetition of
the character before it; all others stand for themselves (`Item`, `compile`).  An expression with
another character in it matches only texts with that character (`mem_of_fullMatch`), and one
without points and pluses only its own text (`fullMatch_iff_of_literal`). -/

namespace Decimals

/-! ### The value of a text -/

/-- Whether there is a minus, and what follows the sign. -/
def sign : List Char → Bool × List Char
  | '-' :: cs => (true, cs)
  | '+' :: cs => (false, cs)
  | cs => (false, cs)

/-- The digits behind a point, and what follows them. -/
def fraction : List Char → List Char × List Char
  | '.' :: cs => (cs.takeWhile Char.isDigit, cs.dropWhile Char.isDigit)
  | cs => ([], cs)

def ofDigits (ds : List Char) : ℕ := Nat.ofDigitChars 10 ds 0

/-- The power of ten at the end of a text. -/
def exponent : List Char → Option ℤ
  | [] => some 0
  | c :: cs =>
      if (c = 'e' ∨ c = 'E') ∧ (sign cs).2 ≠ [] ∧ (sign cs).2.all Char.isDigit then
        some (if (sign cs).1 then -(ofDigits (sign cs).2 : ℤ) else ofDigits (sign cs).2)
      else none

/-- `n` times a power of ten. -/
def scaled (n : ℕ) : ℤ → ℚ
  | .ofNat k => (n * 10 ^ k : ℕ)
  | .negSucc k => mkRat n (10 ^ (k + 1))

/-- The number without its sign. -/
def magnitude (cs : List Char) : Option ℚ :=
  let whole := cs.takeWhile Char.isDigit
  let behind := fraction (cs.dropWhile Char.isDigit)
  if whole ++ behind.1 = [] then none
  else (exponent behind.2).map fun e =>
    scaled (ofDigits (whole ++ behind.1)) (e - behind.1.length)

/-- The number that a text stands for. -/
def value (s : String) : Option ℚ :=
  (magnitude (sign s.toList).2).map fun q => if (sign s.toList).1 then -q else q

example : value "-1.50e+2" = some (-150) := by rfl

theorem scaled_eq (n : ℕ) (e : ℤ) : scaled n e = n * 10 ^ e := by
  cases e with
  | ofNat k =>
      show ((n * 10 ^ k : ℕ) : ℚ) = n * 10 ^ (k : ℤ)
      push_cast
      rfl
  | negSucc k =>
      show mkRat n (10 ^ (k + 1)) = n * 10 ^ Int.negSucc k
      rw [Rat.mkRat_eq_div, zpow_negSucc]
      push_cast
      rfl

/-! ### The characters of a text -/

def isNumberChar (c : Char) : Bool := c.isDigit || c ∈ ['+', '-', '.', 'e', 'E']

theorem mem_sign {c : Char} {cs : List Char} (hc : c ∈ cs) :
    c ∈ (sign cs).2 ∨ isNumberChar c = true := by
  unfold sign
  split
  · rcases List.mem_cons.mp hc with rfl | hc
    · right
      decide
    · exact Or.inl hc
  · rcases List.mem_cons.mp hc with rfl | hc
    · right
      decide
    · exact Or.inl hc
  · exact Or.inl hc

theorem mem_digits {c : Char} {cs : List Char} (hc : c ∈ cs) :
    c ∈ cs.dropWhile Char.isDigit ∨ isNumberChar c = true := by
  rw [← List.takeWhile_append_dropWhile (p := Char.isDigit) (l := cs), List.mem_append] at hc
  rcases hc with hc | hc
  · right
    unfold isNumberChar
    rw [List.mem_takeWhile_imp hc, Bool.true_or]
  · exact Or.inl hc

theorem mem_fraction {c : Char} {cs : List Char} (hc : c ∈ cs) :
    c ∈ (fraction cs).2 ∨ isNumberChar c = true := by
  unfold fraction
  split
  · rcases List.mem_cons.mp hc with rfl | hc
    · right
      decide
    · exact mem_digits hc
  · exact Or.inl hc

theorem isNumberChar_of_exponent {cs : List Char} {e : ℤ} (h : exponent cs = some e) :
    ∀ c ∈ cs, isNumberChar c = true := by
  intro c hc
  cases cs with
  | nil => cases hc
  | cons d cs =>
      rw [exponent] at h
      split at h
      · rename_i hletter
        rcases List.mem_cons.mp hc with rfl | hc
        · rcases hletter.1 with rfl | rfl
          · decide
          · decide
        · rcases mem_sign hc with hc | hc
          · unfold isNumberChar
            rw [List.all_eq_true.mp hletter.2.2 c hc, Bool.true_or]
          · exact hc
      · cases h

theorem isNumberChar_of_value {s : String} {x : ℚ} (h : value s = some x) :
    ∀ c ∈ s.toList, isNumberChar c = true := by
  intro c hc
  obtain ⟨q, hq, -⟩ := Option.map_eq_some_iff.mp h
  simp only [magnitude] at hq
  split at hq
  · cases hq
  · obtain ⟨e, he, -⟩ := Option.map_eq_some_iff.mp hq
    rcases mem_sign hc with hc | hc
    · rcases mem_digits hc with hc | hc
      · rcases mem_fraction hc with hc | hc
        · exact isNumberChar_of_exponent he c hc
        · exact hc
      · exact hc
    · exact hc

theorem ne_nil_of_value {s : String} {x : ℚ} (h : value s = some x) : s.toList ≠ [] := by
  intro hnil
  unfold value at h
  rw [hnil] at h
  cases h

/-! ### Integers -/

theorem magnitude_digits {ds : List Char} (hne : ds ≠ []) (hdigits : ∀ c ∈ ds, c.isDigit = true) :
    magnitude ds = some (ofDigits ds : ℚ) := by
  have htake : ds.takeWhile Char.isDigit = ds := List.takeWhile_eq_self_iff.mpr hdigits
  have hdrop : ds.dropWhile Char.isDigit = [] := List.dropWhile_eq_nil_iff.mpr hdigits
  unfold magnitude
  simp only [htake, hdrop]
  show (if ds ++ [] = [] then none else some (scaled (ofDigits (ds ++ [])) 0)) = _
  rw [List.append_nil, if_neg hne, scaled_eq, zpow_zero, mul_one]

theorem sign_digits {ds : List Char} (hdigits : ∀ c ∈ ds, c.isDigit = true) :
    sign ds = (false, ds) := by
  unfold sign
  split
  · exact absurd (hdigits '-' List.mem_cons_self) (by decide)
  · exact absurd (hdigits '+' List.mem_cons_self) (by decide)
  · rfl

theorem isDigit_toString (n : ℕ) : ∀ c ∈ (toString n).toList, c.isDigit = true := by
  intro c hc
  rw [Nat.toString_eq_repr, Nat.toList_repr] at hc
  exact Nat.isDigit_of_mem_toDigits (by decide) (by decide) hc

theorem toString_ne_nil (n : ℕ) : (toString n).toList ≠ [] := by
  rw [Nat.toString_eq_repr, Nat.toList_repr]
  exact Nat.toDigits_ne_nil

theorem ofDigits_toString (n : ℕ) : ofDigits (toString n).toList = n := by
  unfold ofDigits
  rw [Nat.toString_eq_repr, Nat.toList_repr, Nat.ofDigitChars_ten_toDigits]

/-- The text of a negative integer is a minus and the text of its magnitude. -/
theorem toList_negSucc (n : ℕ) :
    (toString (Int.negSucc n)).toList = '-' :: (toString (n + 1)).toList := by
  show ("-" ++ toString (n + 1)).toList = _
  rw [String.toList_append]
  rfl

theorem magnitude_toString (n : ℕ) : magnitude (toString n).toList = some (n : ℚ) := by
  rw [magnitude_digits (toString_ne_nil n) (isDigit_toString n), ofDigits_toString]

theorem value_toString (n : ℤ) : value (toString n) = some (n : ℚ) := by
  unfold value
  cases n with
  | ofNat n =>
      show (magnitude (sign (toString n).toList).2).map
        (fun q => if (sign (toString n).toList).1 then -q else q) = _
      rw [sign_digits (isDigit_toString n), magnitude_toString]
      rfl
  | negSucc n =>
      rw [toList_negSucc]
      show (magnitude (toString (n + 1)).toList).map (fun q => -q) = _
      rw [magnitude_toString, Int.cast_negSucc]
      rfl

/-! ### The text as a regular expression -/

/-- A character of the expression, and whether it may occur more than once. -/
structure Item where
  char : Char
  repeated : Bool

/-- The items of an expression; nothing if there is no character before a plus. -/
def compile : List Char → Option (List Item)
  | [] => some []
  | '+' :: _ => none
  | c :: '+' :: cs => (compile cs).map (⟨c, true⟩ :: ·)
  | c :: cs => (compile cs).map (⟨c, false⟩ :: ·)

section matching
variable (wild : Char → Bool)

/-- The character of an item matches itself; a point matches what `wild` says. -/
def Item.accepts (i : Item) (c : Char) : Bool := if i.char = '.' then wild c else i.char = c

/-- Whether the items match the whole text. -/
def fullMatch : List Item → List Char → Bool
  | [], cs => cs.isEmpty
  | _ :: _, [] => false
  | i :: is, c :: cs =>
      i.accepts wild c && (fullMatch is cs || (i.repeated && fullMatch (i :: is) cs))

/-- `s.matches(regex)`. -/
def fullMatches (regex s : String) : Option Bool :=
  (compile regex.toList).map fun items => fullMatch wild items s.toList

theorem mem_of_fullMatch {d : Char} (hd : d ≠ '.') : ∀ {cs : List Char} {items : List Item},
    fullMatch wild items cs = true → (∃ i ∈ items, i.char = d) → d ∈ cs
  | cs, [], _, hmem => by
      obtain ⟨i, hi, -⟩ := hmem
      cases hi
  | [], i :: is, h, _ => by cases h
  | c :: cs, i :: is, h, hmem => by
      rw [fullMatch, Bool.and_eq_true, Bool.or_eq_true, Bool.and_eq_true] at h
      obtain ⟨haccepts, hrest⟩ := h
      obtain ⟨j, hj, hchar⟩ := hmem
      rcases List.mem_cons.mp hj with rfl | hj
      · unfold Item.accepts at haccepts
        rw [hchar, if_neg hd, decide_eq_true_eq] at haccepts
        rw [haccepts]
        exact List.mem_cons_self
      · refine List.mem_cons_of_mem _ ?_
        rcases hrest with hrest | hrest
        · exact mem_of_fullMatch hd hrest ⟨j, hj, hchar⟩
        · exact mem_of_fullMatch hd hrest.2 ⟨j, List.mem_cons_of_mem _ hj, hchar⟩

theorem mem_compile {d : Char} (hd : d ≠ '+') {cs : List Char} {items : List Item}
    (h : compile cs = some items) (hmem : d ∈ cs) : ∃ i ∈ items, i.char = d := by
  induction cs using compile.induct generalizing items with
  | case1 => cases hmem
  | case2 cs => cases h
  | case3 c cs hc ih =>
      rw [compile] at h
      · obtain ⟨items, hitems, rfl⟩ := Option.map_eq_some_iff.mp h
        rcases List.mem_cons.mp hmem with rfl | hmem
        · exact ⟨_, List.mem_cons_self, rfl⟩
        · rcases List.mem_cons.mp hmem with rfl | hmem
          · exact absurd rfl hd
          · obtain ⟨i, hi, hchar⟩ := ih hitems hmem
            exact ⟨i, List.mem_cons_of_mem _ hi, hchar⟩
      · exact hc
  | case4 c cs hc hplus ih =>
      rw [compile] at h
      · obtain ⟨items, hitems, rfl⟩ := Option.map_eq_some_iff.mp h
        rcases List.mem_cons.mp hmem with rfl | hmem
        · exact ⟨_, List.mem_cons_self, rfl⟩
        · obtain ⟨i, hi, hchar⟩ := ih hitems hmem
          exact ⟨i, List.mem_cons_of_mem _ hi, hchar⟩
      · exact hc
      · exact hplus

/-- An expression matches no text in which one of its characters is missing. -/
theorem fullMatches_ne_true {d : Char} {regex s : String} (hpoint : d ≠ '.') (hplus : d ≠ '+')
    (hregex : d ∈ regex.toList) (hs : d ∉ s.toList) : fullMatches wild regex s ≠ some true := by
  intro h
  obtain ⟨items, hitems, hmatch⟩ := Option.map_eq_some_iff.mp h
  exact hs (mem_of_fullMatch wild hpoint hmatch (mem_compile hplus hitems hregex))

theorem compile_of_noPlus : ∀ {cs : List Char}, '+' ∉ cs → compile cs = some (cs.map (⟨·, false⟩))
  | [], _ => rfl
  | c :: cs, hplus => by
      rw [List.mem_cons, not_or] at hplus
      rw [compile, compile_of_noPlus hplus.2]
      · rfl
      · exact fun h => hplus.1 h.symm
      · rintro ds rfl
        exact hplus.2 List.mem_cons_self

theorem fullMatch_iff_of_literal : ∀ {ds cs : List Char}, '.' ∉ ds →
    (fullMatch wild (ds.map (⟨·, false⟩)) cs = true ↔ ds = cs)
  | [], [], _ => by simp [fullMatch]
  | [], c :: cs, _ => by simp [fullMatch]
  | d :: ds, [], _ => by simp [fullMatch]
  | d :: ds, c :: cs, hpoint => by
      rw [List.mem_cons, not_or] at hpoint
      rw [List.map_cons, fullMatch, Bool.and_eq_true, Bool.false_and, Bool.or_false,
        fullMatch_iff_of_literal hpoint.2, List.cons.injEq]
      unfold Item.accepts
      rw [if_neg (Ne.symm hpoint.1), decide_eq_true_eq]

/-- Without points and pluses an expression matches its own text only. -/
theorem fullMatches_iff_of_literal {regex s : String} (hpoint : '.' ∉ regex.toList)
    (hplus : '+' ∉ regex.toList) : fullMatches wild regex s = some true ↔ regex = s := by
  unfold fullMatches
  rw [compile_of_noPlus hplus, Option.map_some, Option.some.injEq,
    fullMatch_iff_of_literal wild hpoint, String.toList_inj]

end matching

end Decimals
