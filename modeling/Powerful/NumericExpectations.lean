import Mathlib
import Powerful.CaseValidator
import Powerful.Decimals

/-! # Expecting a number

The validator compares the text of what is expected with the text of a number, takes it as a
regular expression for that text, and only then compares the numbers or looks whether the number
lies in the interval.

An equal text means an equal number, but a point matches any character: `1.5` is a regular
expression for `115`.  `validate_decimal_iff` says that this is the only way in which a number is
accepted that is not close to the expected one.

An interval is never a regular expression for a number.  Its two-sided form includes the bounds
and its one-sided forms exclude them, so they agree except at a bound (`validate_interval_iff`). -/

namespace Powerful

open Decimals

variable {ρ : Type}

/-! ### The texts of numbers -/

/-- What a point matches. -/
def onLine (c : Char) : Bool := !isLineTerminator c

/-- The Java library on decimal texts and on pairs of them with a colon between, one of which may
be missing. -/
structure JavaLib.ReadsNumbers (lib : JavaLib) : Prop where
  matches_number : ∀ {e : String}, (value e).isSome → ∀ s, lib.matches e s = fullMatches onLine e s
  matches_interval : ∀ {min max : String}, min = "" ∨ (value min).isSome →
    max = "" ∨ (value max).isSome → ∀ s,
      lib.matches (min ++ ":" ++ max) s = fullMatches onLine (min ++ ":" ++ max) s
  parse : ∀ {s : String} {x : ℚ}, value s = some x → lib.parseDouble s = some (.finite x)

/-- The text of a `double` has no colon, and if it is a decimal text then that of the number. -/
structure Host.PrintsDoubles (h : Host ρ) : Prop where
  exact : ∀ {q x : ℚ}, value (h.doubleText q) = some x → x = q
  no_colon : ∀ q, ':' ∉ (h.doubleText q).toList

/-- A number of a document, and its text. -/
inductive Numeral (h : Host ρ) : Json → String → ℚ → Prop
  | int (n : ℤ) : Numeral h (.int n) (toString n) n
  | dbl (q : ℚ) : Numeral h (.dbl q) (h.doubleText q) q

/-- A decimal number that is expected, as a text or as a number of the document. -/
inductive Decimal (h : Host ρ) : Json → String → ℚ → Prop
  | text {e : String} {x : ℚ} : value e = some x → Decimal h (.str e) e x
  | number {expect : Json} {e : String} {x : ℚ} :
      Numeral h expect e x → value e = some x → Decimal h expect e x

section texts
variable {h : Host ρ}

theorem colon_notMem_of_value {s : String} {x : ℚ} (hs : value s = some x) : ':' ∉ s.toList :=
  fun hc => absurd (isNumberChar_of_value hs ':' hc) (by decide)

theorem Numeral.no_colon (hprint : h.PrintsDoubles) {result : Json} {t : String} {r : ℚ}
    (hresult : Numeral h result t r) : ':' ∉ t.toList := by
  cases hresult with
  | int n => exact colon_notMem_of_value (value_toString n)
  | dbl => exact hprint.no_colon r

/-- A text that stands for a number stands for the number that has it as its text. -/
theorem Numeral.value_eq (hprint : h.PrintsDoubles) {result : Json} {t : String} {r x : ℚ}
    (hresult : Numeral h result t r) (hx : value t = some x) : x = r := by
  cases hresult with
  | int n =>
      rw [value_toString] at hx
      exact (Option.some.inj hx).symm
  | dbl q => exact hprint.exact hx

theorem Decimal.value_eq {expect : Json} {e : String} {x : ℚ} (hexpect : Decimal h expect e x) :
    value e = some x := by
  cases hexpect with
  | text hx => exact hx
  | number _ hx => exact hx

end texts

namespace CaseValidator
variable {h : Host ρ} {lib : JavaLib}

theorem validate_eq_validateText {expect : Json} {e : String} {x : ℚ}
    (hexpect : Decimal h expect e x) (result : Json) :
    validate h lib expect result = validateText h lib e result := by
  cases hexpect with
  | text _ => rw [validate]
  | number hnumeral _ =>
      cases hnumeral with
      | int n => rw [validate]
      | dbl q => rw [validate]

theorem validateText_numeral {result : Json} {t : String} {r : ℚ} (hresult : Numeral h result t r)
    (e : String) : validateText h lib e result =
      if matchOrEquals lib e t then .ok true else validateNumber lib e r := by
  cases hresult with
  | int n => rw [validateText]
  | dbl q => rw [validateText]

/-! ### Numbers -/

theorem validateNumber_decimal (hlib : lib.ReadsNumbers) {e : String} {x : ℚ} (hx : value e = some x)
    (r : ℚ) : validateNumber lib e r = .ok (decide (|x - r| < 5 / 1000)) := by
  have hcolon := colon_notMem_of_value hx
  have hopen : startsWith e ":" = false := by
    have happ := startsWith_colon (ne_nil_of_value hx) hcolon ""
    rwa [String.append_empty] at happ
  have hclosed : e.toList.getLast? ≠ some ':' := fun hlast => hcolon (List.mem_of_getLast? hlast)
  unfold validateNumber parseDouble
  rw [hlib.parse hx, if_neg (by rw [hopen]; exact Bool.false_ne_true), if_neg hclosed, if_neg hcolon]
  rfl

/-- What is accepted: the same text, a text that is matched, and a number that is close. -/
theorem validate_decimal (hlib : lib.ReadsNumbers) {expect result : Json} {e t : String} {x r : ℚ}
    (hexpect : Decimal h expect e x) (hresult : Numeral h result t r) :
    validate h lib expect result = .ok true ↔
      e = t ∨ fullMatches onLine e t = some true ∨ |x - r| < 5 / 1000 := by
  have hx := hexpect.value_eq
  rw [validate_eq_validateText hexpect, validateText_numeral hresult, validateNumber_decimal hlib hx]
  unfold matchOrEquals
  rw [hlib.matches_number (by rw [hx]; rfl)]
  by_cases hsame : e = t
  · simp [hsame]
  · cases fullMatches onLine e t with
    | none => simp [hsame]
    | some b => cases b <;> simp [hsame]

/-- **Expecting a number**: the numbers are compared, unless what is expected matches the text of
another number as a regular expression. -/
theorem validate_decimal_iff (hlib : lib.ReadsNumbers) (hprint : h.PrintsDoubles)
    {expect result : Json} {e t : String} {x r : ℚ} (hexpect : Decimal h expect e x)
    (hresult : Numeral h result t r) :
    (validate h lib expect result = .ok true ↔ |x - r| < 5 / 1000) ↔
      (fullMatches onLine e t = some true → |x - r| < 5 / 1000) := by
  have hequal : e = t → |x - r| < 5 / 1000 := by
    rintro rfl
    rw [hresult.value_eq hprint hexpect.value_eq, sub_self, abs_zero]
    norm_num
  rw [validate_decimal hlib hexpect hresult]
  constructor
  · exact fun hiff hmatch => hiff.mp (Or.inr (Or.inl hmatch))
  · intro hmatch
    refine ⟨?_, fun hclose => Or.inr (Or.inr hclose)⟩
    rintro (hsame | hmatched | hclose)
    · exact hequal hsame
    · exact hmatch hmatched
    · exact hclose

/-- Without a point and without a plus an expectation is compared as a number. -/
theorem validate_decimal_literal (hlib : lib.ReadsNumbers) (hprint : h.PrintsDoubles)
    {expect result : Json} {e t : String} {x r : ℚ} (hexpect : Decimal h expect e x)
    (hresult : Numeral h result t r) (hpoint : '.' ∉ e.toList) (hplus : '+' ∉ e.toList) :
    validate h lib expect result = .ok true ↔ |x - r| < 5 / 1000 := by
  rw [validate_decimal_iff hlib hprint hexpect hresult, fullMatches_iff_of_literal onLine hpoint hplus]
  rintro rfl
  rw [hresult.value_eq hprint hexpect.value_eq, sub_self, abs_zero]
  norm_num

/-! ### Intervals -/

theorem matchOrEquals_interval_numeral (hlib : lib.ReadsNumbers) (hprint : h.PrintsDoubles)
    {result : Json} {t : String} {r : ℚ} (hresult : Numeral h result t r) {min max : String}
    (hmin : min = "" ∨ (value min).isSome) (hmax : max = "" ∨ (value max).isSome) :
    matchOrEquals lib (min ++ ":" ++ max) t = false := by
  have hcolon : ':' ∈ (min ++ ":" ++ max).toList := by
    rw [toList_colon, List.mem_append]
    exact Or.inr List.mem_cons_self
  have ht := hresult.no_colon hprint
  have hne : min ++ ":" ++ max ≠ t := by
    rintro rfl
    exact ht hcolon
  have hmatch := fullMatches_ne_true onLine (by decide) (by decide) hcolon ht
  unfold matchOrEquals
  rw [hlib.matches_interval hmin hmax, decide_eq_false hne, Bool.false_or]
  cases hfull : fullMatches onLine (min ++ ":" ++ max) t with
  | none => rfl
  | some b =>
      cases b with
      | false => rfl
      | true => exact absurd hfull hmatch

section interval
variable {min max : String} {x y : ℚ} (hlib : lib.ReadsNumbers)
include hlib

theorem validateNumber_below (hy : value max = some y) (r : ℚ) :
    validateNumber lib (":" ++ max) r = .ok (decide (r < y)) := by
  have hopen : startsWith (":" ++ max) ":" = true := by
    unfold startsWith
    rw [String.toList_append]
    rfl
  have hbound : substring (":" ++ max) 1 = max := by
    unfold substring
    rw [String.toList_append]
    exact String.ofList_toList
  unfold validateNumber parseDouble
  rw [if_pos hopen, hbound, hlib.parse hy, ← Double.lt_finite]
  rfl

theorem validateNumber_above (hx : value min = some x) (r : ℚ) :
    validateNumber lib (min ++ ":") r = .ok (decide (x < r)) := by
  have hopen := startsWith_colon (ne_nil_of_value hx) (colon_notMem_of_value hx) ":"
  have hlist : (min ++ ":").toList = min.toList ++ [':'] := String.toList_append
  have hbound : String.ofList (min ++ ":").toList.dropLast = min := by
    rw [hlist, List.dropLast_concat, String.ofList_toList]
  have hclosed : (min ++ ":").toList.getLast? = some ':' := by
    rw [hlist, List.getLast?_concat]
  unfold validateNumber parseDouble
  rw [if_neg (by rw [hopen]; exact Bool.false_ne_true), if_pos hclosed, hbound, hlib.parse hx,
    ← Double.lt_finite]
  rfl

theorem validateNumber_between (hx : value min = some x) (hy : value max = some y) (r : ℚ) :
    validateNumber lib (min ++ ":" ++ max) r = .ok (decide (x ≤ r) && decide (r ≤ y)) := by
  have hmin : parseDouble lib min = .ok (.finite x) := by rw [parseDouble, hlib.parse hx]
  have hmax : parseDouble lib max = .ok (.finite y) := by rw [parseDouble, hlib.parse hy]
  rw [validateNumber_colon lib (ne_nil_of_value hx) (colon_notMem_of_value hx) (ne_nil_of_value hy)
    (colon_notMem_of_value hy) hmin hmax, Double.le_finite, Double.le_finite]

/-- **Intervals**: the three forms agree on a number if and only if it is none of the bounds. -/
theorem validate_interval_iff (hprint : h.PrintsDoubles) {result : Json} {t : String} {r : ℚ}
    (hresult : Numeral h result t r) (hx : value min = some x) (hy : value max = some y) (hle : x ≤ y) :
    (validate h lib (.str (min ++ ":" ++ max)) result = .ok true ↔
      validate h lib (.str (min ++ ":")) result = .ok true ∧
        validate h lib (.str (":" ++ max)) result = .ok true) ↔ r ≠ x ∧ r ≠ y := by
  have hmin : min = "" ∨ (value min).isSome := Or.inr (by rw [hx]; rfl)
  have hmax : max = "" ∨ (value max).isSome := Or.inr (by rw [hy]; rfl)
  have hboth := matchOrEquals_interval_numeral hlib hprint hresult hmin hmax
  have habove := matchOrEquals_interval_numeral hlib hprint hresult hmin (Or.inl rfl)
  have hbelow := matchOrEquals_interval_numeral hlib hprint hresult (Or.inl rfl) hmax
  rw [String.append_empty] at habove
  rw [String.empty_append] at hbelow
  simp only [validate, validateText_numeral hresult, hboth, habove, hbelow, Bool.false_eq_true,
    if_false, validateNumber_between hlib hx hy, validateNumber_above hlib hx,
    validateNumber_below hlib hy, Except.ok.injEq, Bool.and_eq_true, decide_eq_true_eq]
  constructor
  · intro hiff
    constructor
    · rintro rfl
      exact absurd (hiff.mp ⟨le_rfl, hle⟩).1 (lt_irrefl _)
    · rintro rfl
      exact absurd (hiff.mp ⟨hle, le_rfl⟩).2 (lt_irrefl _)
  · rintro ⟨hrx, hry⟩
    constructor
    · exact fun hin => ⟨lt_of_le_of_ne hin.1 (Ne.symm hrx), lt_of_le_of_ne hin.2 hry⟩
    · exact fun hin => ⟨le_of_lt hin.1, le_of_lt hin.2⟩

end interval

/-! ### A library that reads numbers -/

/-- Regular expressions without other special characters, and exact numbers. -/
def numberLib : JavaLib where
  «matches» regex s := fullMatches onLine regex s
  replaceAll _ _ s := .ok s
  parseDouble s := (value s).map Double.finite

theorem numberLib_reads : numberLib.ReadsNumbers where
  matches_number _ _ := rfl
  matches_interval _ _ _ := rfl
  parse hx := by
    show Option.map Double.finite (value _) = _
    rw [hx]
    rfl

theorem bare_doubleText {q : ℚ} (hq : q ≠ 0) :
    (Host.bare.doubleText q).toList = (toString q.num).toList ++ '/' :: (toString q.den).toList := by
  show (if q = 0 then "0.0" else toString q.num ++ "/" ++ toString q.den).toList = _
  rw [if_neg hq, String.toList_append, String.toList_append, List.append_assoc]
  rfl

theorem bare_prints : Host.bare.PrintsDoubles where
  exact := by
    intro q x hx
    by_cases hq : q = 0
    · subst hq
      exact (Option.some.inj hx).symm
    · have hslash := isNumberChar_of_value hx '/' (by rw [bare_doubleText hq]; simp)
      exact absurd hslash (by decide)
  no_colon := by
    intro q hcolon
    by_cases hq : q = 0
    · subst hq
      revert hcolon
      decide
    · rw [bare_doubleText hq, List.mem_append, List.mem_cons] at hcolon
      rcases hcolon with hnum | hslash | hden
      · exact colon_notMem_of_value (value_toString q.num) hnum
      · exact absurd hslash (by decide)
      · exact colon_notMem_of_value (value_toString q.den) hden

/-- One and a half is expected, and two is refused. -/
theorem validate_decimal_iff_sample :
    (validate Host.bare numberLib (.str "1.5") (.int 2) = .ok true ↔
      |3 / 2 - ((2 : ℤ) : ℚ)| < 5 / 1000) ↔
    (fullMatches onLine "1.5" (toString (2 : ℤ)) = some true → |3 / 2 - ((2 : ℤ) : ℚ)| < 5 / 1000) :=
  validate_decimal_iff numberLib_reads bare_prints (.text (by decide +kernel)) (.int 2)

/-- One and a half is expected, and 115 is accepted. -/
theorem validate_decimal_misread :
    validate Host.bare numberLib (.str "1.5") (.int 115) = .ok true ∧
    ¬ ∀ {expect result : Json} {e t : String} {x r : ℚ}, Decimal Host.bare expect e x →
      Numeral Host.bare result t r →
        (validate Host.bare numberLib expect result = .ok true ↔ |x - r| < 5 / 1000) := by
  have haccepted : validate Host.bare numberLib (.str "1.5") (.int 115) = .ok true := by rfl
  have hvalue : value "1.5" = some (3 / 2) := by decide +kernel
  refine ⟨haccepted, fun hclaim => ?_⟩
  have hclose := (hclaim (.text hvalue) (.int 115)).mp haccepted
  norm_num at hclose

/-- A number between the bounds, a negative one and a positive one. -/
theorem validate_interval_iff_sample :
    (validate Host.bare numberLib (.str ("-1" ++ ":" ++ "2")) (.int 0) = .ok true ↔
      validate Host.bare numberLib (.str ("-1" ++ ":")) (.int 0) = .ok true ∧
        validate Host.bare numberLib (.str (":" ++ "2")) (.int 0) = .ok true) ↔
      ((0 : ℤ) : ℚ) ≠ -1 ∧ ((0 : ℤ) : ℚ) ≠ 2 :=
  validate_interval_iff numberLib_reads bare_prints (.int 0) (by rfl) (by rfl) (by norm_num)

/-- One lies between 1 and 2, but not above 1. -/
theorem validate_interval_bound :
    validate Host.bare numberLib (.str "1:2") (.int 1) = .ok true ∧
    validate Host.bare numberLib (.str "1:") (.int 1) = .ok false ∧
    ¬ ∀ {result : Json} {t : String} {r : ℚ} {min max : String} {x y : ℚ},
      Numeral Host.bare result t r → value min = some x → value max = some y → x ≤ y →
        (validate Host.bare numberLib (.str (min ++ ":" ++ max)) result = .ok true ↔
          validate Host.bare numberLib (.str (min ++ ":")) result = .ok true ∧
            validate Host.bare numberLib (.str (":" ++ max)) result = .ok true) := by
  have hboth : validate Host.bare numberLib (.str "1:2") (.int 1) = .ok true := by rfl
  have habove : validate Host.bare numberLib (.str "1:") (.int 1) = .ok false := by rfl
  refine ⟨hboth, habove, fun hclaim => ?_⟩
  have hone : value "1" = some 1 := by rfl
  have htwo : value "2" = some 2 := by rfl
  have hright := ((hclaim (.int 1) hone htwo (by norm_num)).mp hboth).1
  cases hright.symm.trans habove

end CaseValidator

end Powerful
