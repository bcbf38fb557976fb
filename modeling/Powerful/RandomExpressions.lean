import Mathlib
import Powerful.Decimals
import Powerful.Templates

/-! # Random expressions

`{{randomDigits(n)}}`, `{{randomInt(n)}}` and `{{randomInt(l,r)}}` name the texts that they may
render to: so many digits, a number below `n`, or one from `l` on below `r` (`Declares`).

With one parameter they keep to that in every template and for every draw, as long as the parameter
is an `int`.  With two parameters `randomInt` checks the bounds and then draws any `int`; since
`2 ^ 31 - 1` is no number below another `int`, there is always a draw outside of the range
(`staysInRange_iff`). -/

namespace Powerful

variable {ρ : Type}

/-! ### Integers in a text -/

theorem le_toNat_of_isDigit {c : Char} (h : c.isDigit = true) : '0'.toNat ≤ c.toNat := by
  rw [Char.isDigit, Bool.and_eq_true, decide_eq_true_eq, decide_eq_true_eq] at h
  exact UInt32.le_iff_toNat_le.mp h.1

theorem foldl_digits : ∀ {ds : List Char} (n : ℕ), (∀ c ∈ ds, c.isDigit = true) →
    ds.foldl (fun (n : ℤ) c => 10 * n + (c.toNat - '0'.toNat)) (n : ℤ) = (Nat.ofDigitChars 10 ds n : ℤ)
  | [], n, _ => by rw [Nat.ofDigitChars_nil]; rfl
  | c :: ds, n, h => by
      have hc := le_toNat_of_isDigit (h c List.mem_cons_self)
      have hstep : (10 * n + (c.toNat - '0'.toNat) : ℤ) = ((10 * n + (c.toNat - '0'.toNat) : ℕ) : ℤ) := by
        rw [Nat.cast_add, Nat.cast_mul, Nat.cast_sub hc]
        rfl
      rw [List.foldl_cons, Nat.ofDigitChars_cons, hstep]
      exact foldl_digits _ fun d hd => h d (List.mem_cons_of_mem c hd)

theorem foldl_toString (n : ℕ) :
    (toString n).toList.foldl (fun (n : ℤ) c => 10 * n + (c.toNat - '0'.toNat)) ((0 : ℕ) : ℤ) = n := by
  rw [foldl_digits 0 (Decimals.isDigit_toString n)]
  exact congrArg Nat.cast (Decimals.ofDigits_toString n)

theorem all_isDigit_toString (n : ℕ) : (toString n).toList.all Char.isDigit = true :=
  List.all_eq_true.mpr (Decimals.isDigit_toString n)

/-- The text of an integer is read as that integer if it is an `int`. -/
theorem parseInt_toString (n : ℤ) : parseInt (toString n) =
    if -2147483648 ≤ n ∧ n ≤ 2147483647 then .ok n
    else .error (.numberFormat ("For input string: \"" ++ toString n ++ "\"")) := by
  cases n with
  | ofNat n =>
      have hdigits := Decimals.isDigit_toString n
      have hhead : (toString n).toList.head? ≠ some '-' := fun h =>
        absurd (hdigits '-' (List.mem_of_head? h)) (by decide)
      show parseInt (toString n) = _
      unfold parseInt
      split
      · rename_i ds h
        exact absurd (hdigits '+' (by rw [h]; exact List.mem_cons_self)) (by decide)
      · rename_i ds h
        exact absurd (hdigits '-' (by rw [h]; exact List.mem_cons_self)) (by decide)
      · simp only [foldl_toString, if_neg hhead, ne_eq, Decimals.toString_ne_nil, not_false_eq_true,
          all_isDigit_toString, true_and]
        rfl
  | negSucc n =>
      unfold parseInt
      rw [Decimals.toList_negSucc]
      simp only [foldl_toString, List.head?_cons, if_true, ne_eq, Decimals.toString_ne_nil,
        not_false_eq_true, all_isDigit_toString, true_and]
      rfl

theorem mem_toString_int {c : Char} (n : ℤ) (hc : c ∈ (toString n).toList) : c = '-' ∨ c.isDigit = true := by
  cases n with
  | ofNat n => exact Or.inr (Decimals.isDigit_toString n c hc)
  | negSucc n =>
      rw [Decimals.toList_negSucc] at hc
      rcases List.mem_cons.mp hc with rfl | hc
      · exact Or.inl rfl
      · exact Or.inr (Decimals.isDigit_toString (n + 1) c hc)

theorem toString_int_inj {m n : ℤ} (h : toString m = toString n) : m = n := by
  have hvalue := Decimals.value_toString m
  rw [h, Decimals.value_toString n] at hvalue
  exact (Int.cast_inj.mp (Option.some.inj hvalue)).symm

theorem toString_int_ne_empty (n : ℤ) : toString n ≠ "" := by
  intro h
  have hvalue := Decimals.value_toString n
  rw [h] at hvalue
  exact Decimals.ne_nil_of_value hvalue rfl

/-! ### The expressions -/

inductive RandomExpr where
  | digits (n : ℕ) (pos : 1 ≤ n)
  | below (n : ℕ) (pos : 1 ≤ n)
  | between (left right : Int32) (lt : left.toInt < right.toInt)

namespace RandomExpr

def name : RandomExpr → String
  | digits _ _ => "randomDigits"
  | below _ _ | between _ _ _ => "randomInt"

def numbers : RandomExpr → List ℤ
  | digits n _ | below n _ => [(n : ℤ)]
  | between left right _ => [left.toInt, right.toInt]

/-- The text between the parentheses. -/
def args (e : RandomExpr) : String := (String.singleton ',').intercalate (e.numbers.map toString)

/-- The texts that the expression may render to. -/
def Declares (text : String) : RandomExpr → Prop
  | digits n _ => text.toList.length = n ∧ ∀ c ∈ text.toList, c.isDigit = true
  | below n _ => ∃ k : ℤ, text = toString k ∧ 0 ≤ k ∧ k < n
  | between left right _ => ∃ k : ℤ, text = toString k ∧ left.toInt ≤ k ∧ k < right.toInt

/-- One parameter, which is an `int`. -/
def OneInt : RandomExpr → Prop
  | digits n _ | below n _ => n ≤ 2147483647
  | between _ _ _ => False

/-- The characters of the parameters. -/
def isArgChar (c : Char) : Bool := c.isDigit || c = '-' || c = ','

theorem isArgChar_toString (n : ℤ) : ∀ c ∈ (toString n).toList, isArgChar c = true := by
  intro c hc
  unfold isArgChar
  rcases mem_toString_int n hc with rfl | hdigit
  · rfl
  · rw [hdigit]
    rfl

theorem isArgChar_args (e : RandomExpr) : ∀ c ∈ e.args.toList, isArgChar c = true := by
  cases e with
  | digits n pos | below n pos => exact isArgChar_toString n
  | between left right lt =>
      intro c hc
      have hargs : (between left right lt).args = toString left.toInt ++ "," ++ toString right.toInt := rfl
      rw [hargs, String.toList_append, String.toList_append, List.mem_append, List.mem_append] at hc
      rcases hc with (hc | hc) | hc
      · exact isArgChar_toString left.toInt c hc
      · rw [List.mem_singleton.mp hc]
        rfl
      · exact isArgChar_toString right.toInt c hc

/-- The expression as a part of a template. -/
def expr (e : RandomExpr) : Expr where
  name := e.name
  args := e.args
  known := by cases e <;> exact List.mem_of_elem_eq_true rfl
  closed c hc := Expr.closed_of (by decide) (e.isArgChar_args c hc)

theorem args_ne_empty (e : RandomExpr) : e.args ≠ "" := by
  intro h
  cases e with
  | digits n pos | below n pos => exact toString_int_ne_empty n h
  | between left right lt =>
      have hargs : (between left right lt).args = toString left.toInt ++ "," ++ toString right.toInt := rfl
      have hlist := congrArg String.toList h
      rw [hargs, String.toList_append, String.toList_append] at hlist
      simp at hlist

/-- The parameters are found again. -/
theorem params_expr (e : RandomExpr) : e.expr.params = e.numbers.map toString := by
  obtain ⟨front, last, hnumbers⟩ : ∃ front last, e.numbers = front ++ [last] := by
    cases e with
    | digits n pos | below n pos => exact ⟨[], (n : ℤ), rfl⟩
    | between left right lt => exact ⟨[left.toInt], right.toInt, rfl⟩
  have hcomma : ∀ t ∈ front.map toString ++ [toString last], ',' ∉ t.toList := by
    intro t ht hc
    rw [← List.map_singleton, ← List.map_append] at ht
    obtain ⟨n, -, rfl⟩ := List.mem_map.mp ht
    rcases mem_toString_int n hc with h | h <;> exact absurd h (by decide)
  show (if e.args = "" then [] else split ',' e.args) = _
  rw [if_neg e.args_ne_empty]
  unfold args
  rw [hnumbers, List.map_append, List.map_singleton]
  exact split_intercalate hcomma (toString_int_ne_empty last)

/-! ### What an expression renders to -/

section values
variable (h : Host ρ) (v : View)

theorem parseInt_nat (n : ℕ) : parseInt (toString (n : ℤ)) = if n ≤ 2147483647 then .ok (n : ℤ)
    else .error (.numberFormat ("For input string: \"" ++ toString (n : ℤ) ++ "\"")) := by
  have hint : (-2147483648 ≤ (n : ℤ) ∧ (n : ℤ) ≤ 2147483647) ↔ n ≤ 2147483647 := by omega
  rw [parseInt_toString]
  exact if_congr hint rfl rfl

theorem parseInt_int32 (n : Int32) : parseInt (toString n.toInt) = .ok n.toInt := by
  have hlow := n.le_toInt
  have hhigh := n.toInt_lt
  rw [parseInt_toString, if_pos ⟨by omega, by omega⟩]

/-- The value is what the function returns for the numbers. -/
theorem calcExpr_eq (e : RandomExpr) {function : List String → ρ → Except Exc (Option String) × ρ}
    (hfunction : exprFunc h v e.name = some function) (r : ρ) : calcExpr h v e.expr.call r =
      ((function (e.numbers.map toString) r).1.map fun result => result.getD "",
        (function (e.numbers.map toString) r).2) := by
  rw [Expr.calcExpr_call]
  unfold Expr.value
  rw [show e.expr.name = e.name from rfl, hfunction, params_expr]

theorem calcExpr_digits (n : ℕ) (pos : 1 ≤ n) (r : ρ) : calcExpr h v (digits n pos).expr.call r =
    if n ≤ 2147483647 then (.ok (randomDigits h n r).1, (randomDigits h n r).2)
    else (.error (.numberFormat ("For input string: \"" ++ toString (n : ℤ) ++ "\"")), r) := by
  have hparam : (firstParam ((digits n pos).numbers.map toString)).bind parseInt = parseInt (toString (n : ℤ)) := rfl
  rw [calcExpr_eq h v (digits n pos) rfl]
  simp only [hparam, parseInt_nat]
  by_cases hn : n ≤ 2147483647
  · simp only [if_pos hn]
    rfl
  · simp only [if_neg hn]
    rfl

theorem calcExpr_below (n : ℕ) (pos : 1 ≤ n) (r : ρ) : calcExpr h v (below n pos).expr.call r =
    if n ≤ 2147483647 then (.ok (toString (h.nextIntBelow n r).1), (h.nextIntBelow n r).2)
    else (.error (.numberFormat ("For input string: \"" ++ toString (n : ℤ) ++ "\"")), r) := by
  have hrandom : randomInt h ((below n pos).numbers.map toString) r =
      if n ≤ 2147483647 then (.ok ((h.nextIntBelow n r).1 : ℤ), (h.nextIntBelow n r).2)
      else (.error (.numberFormat ("For input string: \"" ++ toString (n : ℤ) ++ "\"")), r) := by
    show randomInt h [toString (n : ℤ)] r = _
    have hpos : ¬ (n : ℤ) ≤ 0 := by omega
    unfold randomInt
    simp only [parseInt_nat]
    by_cases hn : n ≤ 2147483647
    · simp only [if_pos hn, if_neg hpos, Int.toNat_natCast]
    · simp only [if_neg hn]
  rw [calcExpr_eq h v (below n pos) rfl]
  simp only [hrandom]
  by_cases hn : n ≤ 2147483647
  · simp only [if_pos hn]
    rfl
  · simp only [if_neg hn]
    rfl

/-- The bounds are checked, and then any `int` is drawn. -/
theorem calcExpr_between (left right : Int32) (lt : left.toInt < right.toInt) (r : ρ) :
    calcExpr h v (between left right lt).expr.call r = (.ok (toString (h.nextInt r).1), (h.nextInt r).2) := by
  have hrandom : randomInt h ((between left right lt).numbers.map toString) r =
      (.ok (h.nextInt r).1, (h.nextInt r).2) := by
    show randomInt h [toString left.toInt, toString right.toInt] r = _
    unfold randomInt
    simp only [parseInt_int32, if_neg (not_le_of_gt lt)]
  rw [calcExpr_eq h v (between left right lt) rfl]
  simp only [hrandom]
  rfl

/-- So many digits are drawn, one after the other. -/
theorem randomDigits_declares : ∀ (n : ℕ) (r : ρ), (randomDigits h n r).1.toList.length = n ∧
    ∀ c ∈ (randomDigits h n r).1.toList, c.isDigit = true
  | 0, r => ⟨rfl, fun c hc => by cases hc⟩
  | n + 1, r => by
      obtain ⟨hlength, hdigits⟩ := randomDigits_declares n (h.nextIntBelow 10 r).2
      have hone : (toString (h.nextIntBelow 10 r).1).toList.length = 1 := by
        rw [Nat.toString_eq_repr, Nat.toList_repr, Nat.toDigits_of_lt_base (h.nextIntBelow_lt 10 r (by decide))]
        rfl
      have htext : (randomDigits h (n + 1) r).1.toList = (toString (h.nextIntBelow 10 r).1).toList ++
          (randomDigits h n (h.nextIntBelow 10 r).2).1.toList := String.toList_append
      rw [htext]
      constructor
      · rw [List.length_append, hone, hlength, add_comm]
      · intro c hc
        rcases List.mem_append.mp hc with hc | hc
        · exact Decimals.isDigit_toString _ c hc
        · exact hdigits c hc

/-- With one parameter the value is a declared text. -/
theorem calcExpr_declares {e : RandomExpr} (he : e.OneInt) (r : ρ) :
    ∃ text r', calcExpr h v e.expr.call r = (.ok text, r') ∧ e.Declares text := by
  cases e with
  | digits n pos =>
      have hn : n ≤ 2147483647 := he
      rw [calcExpr_digits, if_pos hn]
      exact ⟨_, _, rfl, randomDigits_declares h n r⟩
  | below n pos =>
      have hn : n ≤ 2147483647 := he
      rw [calcExpr_below, if_pos hn]
      have hlt := h.nextIntBelow_lt n r pos
      exact ⟨_, _, rfl, (h.nextIntBelow n r).1, rfl, Int.natCast_nonneg _, Int.ofNat_lt.mpr hlt⟩
  | between left right lt => exact he.elim

end values

/-! ### In a template -/

/-- Wherever the expression stands in a template, a declared text stands in what is rendered. -/
def StaysInRange (h : Host ρ) (e : RandomExpr) : Prop :=
  ∀ (v : View) (source : String) (front behind : List Segment) (r r₁ : ρ) (before : String),
    segments 0 source.toList = front ++ .expr e.expr.call :: behind →
    renderSegments h v front r = (.ok before, r₁) →
      ∃ text r₂, calcExpr h v e.expr.call r₁ = (.ok text, r₂) ∧ e.Declares text ∧
        render h v source r = ((renderSegments h v behind r₂).1.map fun after => before ++ text ++ after,
          (renderSegments h v behind r₂).2)

/-- The place in the template does not matter. -/
theorem staysInRange_iff_calcExpr (h : Host ρ) (e : RandomExpr) : e.StaysInRange h ↔
    ∀ (v : View) (r : ρ), ∃ text r', calcExpr h v e.expr.call r = (.ok text, r') ∧ e.Declares text := by
  constructor
  · intro hrange v r
    have hsegments : segments 0 (String.ofList e.expr.source).toList = [] ++ .expr e.expr.call :: [] := by
      rw [String.toList_ofList, ← List.append_nil e.expr.source, e.expr.segments_source]
      rfl
    obtain ⟨text, r', hcalc, hdeclares, -⟩ := hrange v _ [] [] r r "" hsegments rfl
    exact ⟨text, r', hcalc, hdeclares⟩
  · intro hcalc v source front behind r r₁ before hsegments hfront
    obtain ⟨text, r₂, htext, hdeclares⟩ := hcalc v r₁
    refine ⟨text, r₂, htext, hdeclares, ?_⟩
    unfold render
    rw [hsegments, renderSegments_append, hfront]
    simp only [renderSegments, htext, appendReplacement_quoteReplacement]
    cases renderSegments h v behind r₂ with
    | mk out r₃ => cases out <;> simp [Except.map, String.append_assoc]

end RandomExpr

/-- Every `int` is drawn in some state of the generator. -/
def Host.DrawsInts (h : Host ρ) : Prop := ∀ k : Int32, ∃ r, (h.nextInt r).1 = k.toInt

namespace RandomExpr

/-- The greatest `int` is below no `int`. -/
theorem not_declares_between (left right : Int32) (lt : left.toInt < right.toInt) :
    ¬ (between left right lt).Declares (toString (2147483647 : ℤ)) := by
  rintro ⟨k, htext, -, hright⟩
  obtain rfl := toString_int_inj htext
  have hlt := right.toInt_lt
  omega

/-- **Ranges**: an expression stays in its range exactly if it has one parameter, which is an
`int`. -/
theorem staysInRange_iff {h : Host ρ} (hdraws : h.DrawsInts) (e : RandomExpr) :
    e.StaysInRange h ↔ e.OneInt := by
  rw [staysInRange_iff_calcExpr]
  constructor
  · intro hcalc
    obtain ⟨r, hdraw⟩ := hdraws 2147483647
    obtain ⟨text, r', htext, hdeclares⟩ := hcalc pathView r
    cases e with
    | digits n pos =>
        show n ≤ 2147483647
        by_contra hn
        rw [calcExpr_digits, if_neg hn] at htext
        cases htext
    | below n pos =>
        show n ≤ 2147483647
        by_contra hn
        rw [calcExpr_below, if_neg hn] at htext
        cases htext
    | between left right lt =>
        rw [calcExpr_between, hdraw] at htext
        obtain rfl := Except.ok.inj (Prod.mk.inj htext).1
        exact not_declares_between left right lt hdeclares
  · exact fun he v r => calcExpr_declares h v he r

end RandomExpr

/-! ### The generator of the JDK -/

namespace JavaRandom

/-- A step of `java.util.Random`. -/
def nextSeed (seed : BitVec 48) : BitVec 48 := seed * 0x5DEECE66D + 0xB

/-- `next(bits)`: the highest bits of the next seed. -/
def next (bits : ℕ) (seed : BitVec 48) : BitVec bits := (nextSeed seed).extractLsb' (48 - bits) bits

def nextInt (seed : BitVec 48) : ℤ := (next 32 seed).toInt

/-- Draw until the remainder favours no number; this ends within a period. -/
def drawBelow (n : ℕ) : ℕ → BitVec 48 → ℕ × BitVec 48
  | 0, seed => ((next 31 seed).toNat % n, nextSeed seed)
  | period + 1, seed =>
      let u := (next 31 seed).toNat
      if u - u % n + (n - 1) < 2 ^ 31 then (u % n, nextSeed seed)
      else drawBelow n period (nextSeed seed)

/-- `nextInt(n)`. -/
def nextIntBelow (n : ℕ) (seed : BitVec 48) : ℕ × BitVec 48 :=
  if n &&& (n - 1) = 0 then (n * (next 31 seed).toNat / 2 ^ 31, nextSeed seed)
  else drawBelow n (2 ^ 48) seed

theorem drawBelow_lt {n : ℕ} (hn : 0 < n) : ∀ (period : ℕ) (seed : BitVec 48),
    (drawBelow n period seed).1 < n
  | 0, _ => Nat.mod_lt _ hn
  | period + 1, seed => by
      rw [drawBelow]
      split
      · exact Nat.mod_lt _ hn
      · exact drawBelow_lt hn period (nextSeed seed)

theorem nextIntBelow_lt (n : ℕ) (seed : BitVec 48) (hn : 0 < n) : (nextIntBelow n seed).1 < n := by
  unfold nextIntBelow
  split
  · have hbits := (next 31 seed).isLt
    exact Nat.div_lt_of_lt_mul (by rw [mul_comm]; exact Nat.mul_lt_mul_of_pos_right hbits hn)
  · exact drawBelow_lt hn (2 ^ 48) seed

/-- A step is undone with the inverse of the multiplier. -/
theorem nextSeed_surjective (seed : BitVec 48) : ∃ before, nextSeed before = seed := by
  have hinverse : (0xDFE05BCB1365 : BitVec 48) * 0x5DEECE66D = 1#48 := by decide
  refine ⟨(seed - 0xB) * 0xDFE05BCB1365, ?_⟩
  unfold nextSeed
  rw [BitVec.mul_assoc, hinverse, BitVec.mul_one, BitVec.sub_add_cancel]

theorem nextInt_surjective (k : Int32) : ∃ seed, nextInt seed = k.toInt := by
  obtain ⟨seed, hseed⟩ := nextSeed_surjective (k.toBitVec ++ (0 : BitVec 16))
  have hhigh : (k.toBitVec ++ (0 : BitVec 16)).extractLsb' 16 32 = k.toBitVec := by
    rw [BitVec.extractLsb'_append_eq_of_le (le_refl 16)]
    exact BitVec.extractLsb'_eq_self
  refine ⟨seed, ?_⟩
  unfold nextInt next
  rw [hseed]
  exact congrArg BitVec.toInt hhigh

end JavaRandom

/-- A process without settings that draws its numbers as the JDK does. -/
def Host.seeded : Host (BitVec 48) where
  getProperty := Host.bare.getProperty
  getenv := Host.bare.getenv
  environment := Host.bare.environment
  nextInt seed := (JavaRandom.nextInt seed, JavaRandom.nextSeed seed)
  nextIntBelow := JavaRandom.nextIntBelow
  nextIntBelow_lt := JavaRandom.nextIntBelow_lt
  nanoTime seed := (0, seed)
  formatNow pattern seed := ((Host.bare.formatNow pattern ()).1, seed)
  identityText seed := ((Host.bare.identityText ()).1, seed)
  doubleText := Host.bare.doubleText
  parseDouble := Host.bare.parseDouble
  statusName := Host.bare.statusName
  decodeBytes := Host.bare.decodeBytes

theorem Host.seeded_drawsInts : Host.seeded.DrawsInts := JavaRandom.nextInt_surjective

namespace RandomExpr

/-- `{{randomInt(10)}}` and `{{randomInt(5,10)}}`. -/
theorem staysInRange_iff_sample : (below 10 (by decide)).StaysInRange Host.seeded ∧
    ¬ (between 5 10 (by decide)).StaysInRange Host.seeded := by
  constructor
  · exact (staysInRange_iff Host.seeded_drawsInts _).mpr (by show 10 ≤ 2147483647; decide)
  · exact fun hrange => (staysInRange_iff Host.seeded_drawsInts _).mp hrange

/-- From the seed 0 a template that asks for a number from 5 on gets a 0. -/
theorem randomInt_ignores_range :
    render Host.seeded pathView "id-{{randomInt(5,10)}}" 0 = (.ok "id-0", 0xB) ∧
    ¬ (between 5 10 (by decide)).StaysInRange Host.seeded := by
  refine ⟨rfl, fun hrange => ?_⟩
  rw [staysInRange_iff_calcExpr] at hrange
  obtain ⟨text, r', htext, k, hk, hlow, -⟩ := hrange pathView 0
  rw [calcExpr_between] at htext
  obtain rfl := Except.ok.inj (Prod.mk.inj htext).1
  obtain rfl := toString_int_inj hk
  exact absurd hlow (by decide)

end RandomExpr

end Powerful
