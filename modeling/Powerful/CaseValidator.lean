import Mathlib
import Powerful.Beans

/-! # Validation of results

`CaseValidator.validate` compares the result of a case with what the case expects: a text or a
number is compared with a text as a regular expression, and with a number also as a number or
a range; a map is compared field by field, and may not have fewer keys than the result.

What is no text, no number and no map is refused with an exception, and so is a malformed
number or range.  `validate_obj_iff` says when a result passes the check of a map. -/

namespace Powerful

/-- A `double`; `none` is NaN. -/
abbrev Double := Option (WithBot (WithTop ℚ))

namespace Double

def finite (q : ℚ) : Double := some (((q : ℚ) : WithTop ℚ) : WithBot (WithTop ℚ))

/-- The comparison `a < b`; nothing compares with NaN. -/
def lt (a b : Double) : Bool :=
  match a, b with
  | some x, some y => decide (x < y)
  | _, _ => false

def le (a b : Double) : Bool :=
  match a, b with
  | some x, some y => decide (x ≤ y)
  | _, _ => false

theorem lt_finite (x y : ℚ) : lt (finite x) (finite y) = decide (x < y) := by
  unfold lt finite
  simp only [WithBot.coe_lt_coe, WithTop.coe_lt_coe]

theorem le_finite (x y : ℚ) : le (finite x) (finite y) = decide (x ≤ y) := by
  unfold le finite
  simp only [WithBot.coe_le_coe, WithTop.coe_le_coe]

end Double

/-- What the Java library does with regular expressions and with texts of numbers.  `matches`
gives nothing for a malformed expression, `parseDouble` nothing for a malformed number. -/
structure JavaLib where
  «matches» : (regex s : String) → Option Bool
  replaceAll : (regex replacement s : String) → Except Exc String
  parseDouble : String → Option Double

variable {ρ : Type}

/-- `getClass().getSimpleName()` of what Jackson and the service make. -/
def simpleName : Json → String
  | .null => "null"
  | .bool _ => "Boolean"
  | .int _ => "Integer"
  | .dbl _ => "Double"
  | .str _ => "String"
  | .arr _ => "ArrayList"
  | .obj _ => "TreeMap"

namespace CaseValidator
variable (h : Host ρ) (lib : JavaLib)

def matchOrEquals (regex s : String) : Bool := regex = s || (lib.matches regex s).getD false

/-- `Double.parseDouble`. -/
def parseDouble (s : String) : Except Exc Double :=
  match lib.parseDouble s with
  | some d => .ok d
  | none => .error (.numberFormat (if trim s = "" then "empty String"
      else "For input string: \"" ++ trim s ++ "\""))

/-- Compare a number with a bound, a range or a number. -/
def validateNumber (expect : String) (result : ℚ) : Except Exc Bool :=
  if startsWith expect ":" then do
    let max ← parseDouble lib (substring expect 1)
    .ok (Double.lt (.finite result) max)
  else if expect.toList.getLast? = some ':' then do
    let min ← parseDouble lib (String.ofList expect.toList.dropLast)
    .ok (Double.lt min (.finite result))
  else if ':' ∈ expect.toList then
    match split ':' expect with
    | [left, right] => do
        let min ← parseDouble lib left
        let max ← parseDouble lib right
        .ok (Double.le min (.finite result) && Double.le (.finite result) max)
    | _ => .error (.illegalArgument ("not a number range: " ++ expect))
  else do
    let exact ← parseDouble lib expect
    match exact with
    | some ((q : ℚ) : WithTop ℚ) => .ok (decide (|q - result| < 5 / 1000))
    | _ => .ok false

/-- Compare a result with the text of what is expected. -/
def validateText (expect : String) (result : Json) : Except Exc Bool :=
  match result with
  | .null => .ok (matchOrEquals lib expect "")
  | .str s => .ok (matchOrEquals lib expect s)
  | .int n => if matchOrEquals lib expect (toString n) then .ok true else validateNumber lib expect n
  | .dbl q => if matchOrEquals lib expect (h.doubleText q) then .ok true else validateNumber lib expect q
  | _ => .error (.illegalArgument ("can't validate value for type '" ++ simpleName result ++
      "' and expr '" ++ expect ++ "'"))

/-- The map a result is read as; a result that is not there or empty is the empty map. -/
def resultMap : Json → Option (List (String × Json))
  | .null => some []
  | .str s => if s = "" then some [] else none
  | .obj fs => some fs
  | _ => none

mutual

def validate (expect result : Json) : Except Exc Bool :=
  match expect with
  | .null => .ok true
  | .str s => validateText h lib s result
  | .int n => validateText h lib (toString n) result
  | .dbl q => validateText h lib (h.doubleText q) result
  | .obj fs => match resultMap result with
    | none => .ok false
    | some rs =>
        if rs.all (fun r => r.1 ∈ fs.map Prod.fst) then validateFields fs rs else .ok false
  | .bool _ | .arr _ => .error (.illegalState ("Unknown type: " ++ simpleName expect))

def validateFields (expectMap rs : List (String × Json)) : Except Exc Bool :=
  match expectMap with
  | [] => .ok true
  | (k, expect) :: fs => match validate expect ((rs.lookup k).getD .null) with
    | .ok true => validateFields fs rs
    | .ok false => .ok false
    | .error e => .error e

end

/-! ### Intervals -/

theorem toList_colon (s u : String) : (s ++ ":" ++ u).toList = s.toList ++ ':' :: u.toList := by
  rw [String.toList_append, String.toList_append, List.append_assoc]
  rfl

theorem startsWith_colon {s : String} (hne : s.toList ≠ []) (hs : ':' ∉ s.toList) (u : String) :
    startsWith (s ++ u) ":" = false := by
  unfold startsWith
  rw [String.toList_append]
  cases hlist : s.toList with
  | nil => exact absurd hlist hne
  | cons c cs =>
      have hc : ':' ≠ c := by
        rintro rfl
        exact hs (by rw [hlist]; exact List.mem_cons_self)
      show (':' == c && _) = false
      rw [beq_false_of_ne hc, Bool.false_and]

theorem getLast?_colon (s : String) {u : String} (hne : u.toList ≠ []) (hu : ':' ∉ u.toList) :
    (s ++ ":" ++ u).toList.getLast? ≠ some ':' := by
  rw [toList_colon, List.getLast?_append_cons, List.getLast?_cons]
  cases hlast : u.toList.getLast? with
  | none => exact absurd (List.getLast?_eq_none_iff.mp hlast) hne
  | some c =>
      intro hc
      obtain rfl : c = ':' := Option.some.inj hc
      exact hu (List.mem_of_getLast? hlast)

theorem split_colon {s u : String} (hs : ':' ∉ s.toList) (hne : u.toList ≠ []) (hu : ':' ∉ u.toList) :
    split ':' (s ++ ":" ++ u) = [s, u] := by
  have hparts : ∀ t ∈ [s] ++ [u], ':' ∉ t.toList := by
    rintro t ht
    rcases List.mem_cons.mp ht with rfl | ht
    · exact hs
    · rw [List.mem_singleton.mp ht]
      exact hu
  have hlast : u ≠ "" := fun hempty => hne (by rw [hempty]; rfl)
  exact split_intercalate hparts hlast

/-- A number is compared with both bounds. -/
theorem validateNumber_colon {s u : String} {min max : Double} (hs : s.toList ≠ [])
    (hsColon : ':' ∉ s.toList) (hu : u.toList ≠ []) (huColon : ':' ∉ u.toList)
    (hmin : parseDouble lib s = .ok min) (hmax : parseDouble lib u = .ok max) (r : ℚ) :
    validateNumber lib (s ++ ":" ++ u) r =
      .ok (Double.le min (.finite r) && Double.le (.finite r) max) := by
  have hopen : startsWith (s ++ ":" ++ u) ":" = false := by
    rw [String.append_assoc]
    exact startsWith_colon hs hsColon _
  have hcolon : ':' ∈ (s ++ ":" ++ u).toList := by
    rw [toList_colon, List.mem_append]
    exact Or.inr List.mem_cons_self
  unfold validateNumber
  rw [if_neg (by rw [hopen]; exact Bool.false_ne_true), if_neg (getLast?_colon s hu huColon),
    if_pos hcolon, split_colon hsColon hu huColon]
  simp only [hmin, hmax]
  rfl

/-! ### Passing -/

theorem validateFields_iff (fs rs : List (String × Json)) :
    validateFields h lib fs rs = .ok true ↔
      ∀ f ∈ fs, validate h lib f.2 ((rs.lookup f.1).getD .null) = .ok true := by
  induction fs with
  | nil => simp [validateFields]
  | cons f fs ih =>
      rw [validateFields, List.forall_mem_cons]
      cases hv : validate h lib f.2 ((rs.lookup f.1).getD .null) with
      | error e => simp
      | ok valid =>
          cases valid with
          | false => simp
          | true => simpa using ih

/-- A map passes if no key of it is unknown and every field passes. -/
theorem validate_obj_iff (fs : List (String × Json)) (result : Json) :
    validate h lib (.obj fs) result = .ok true ↔
      ∃ rs, resultMap result = some rs ∧ (∀ r ∈ rs, r.1 ∈ fs.map Prod.fst) ∧
        ∀ f ∈ fs, validate h lib f.2 ((rs.lookup f.1).getD .null) = .ok true := by
  rw [validate]
  cases hrs : resultMap result with
  | none => simp
  | some rs =>
      simp only
      by_cases hall : rs.all (fun r => r.1 ∈ fs.map Prod.fst) = true
      · rw [if_pos hall, validateFields_iff]
        simp only [List.all_eq_true, decide_eq_true_eq] at hall
        constructor
        · exact fun hfields => ⟨rs, rfl, hall, hfields⟩
        · rintro ⟨rs', heq, -, hfields⟩
          obtain rfl := Option.some.inj heq
          exact hfields
      · rw [if_neg hall]
        constructor
        · intro hfalse
          cases hfalse
        · rintro ⟨rs', heq, hkeys, -⟩
          obtain rfl := Option.some.inj heq
          refine absurd ?_ hall
          simpa only [List.all_eq_true, decide_eq_true_eq] using hkeys

end CaseValidator

end Powerful
