import Mathlib
import Powerful.Model

/-! # Rendering of templates

`render` replaces every expression `{{name(args)}}` of a template by its value.  The regular
expressions of the source are scanned by hand: an expression opens with two braces, has at
least one character, stays on one line and ends at the first two closing braces behind that
character; a text that opens two braces and does not close them is literal.

A `Host` is what a process brings along: its system properties and environment, its random
generator and clock (whose state `ρ` is threaded through), the texts Java prints for
objects and doubles, and its default charset.

`render_append_suffix` is the law the record templates rest on: behind a template that
closes what it opens, a literal and one more expression are rendered on their own. -/

namespace Powerful

/-- What a process brings along. -/
structure Host (ρ : Type) where
  getProperty : String → Option String
  getenv : String → Option String
  environment : String → Option String
  nextInt : ρ → ℤ × ρ
  nextIntBelow : ℕ → ρ → ℕ × ρ
  nextIntBelow_lt : ∀ n r, 0 < n → (nextIntBelow n r).1 < n
  nanoTime : ρ → ℕ × ρ
  formatNow : String → ρ → Option String × ρ
  identityText : ρ → String × ρ
  doubleText : ℚ → String
  parseDouble : String → Option ℚ
  statusName : ℤ → Option String
  decodeBytes : List UInt8 → String

/-- A process without settings, whose random numbers and clock stand still and whose default
charset is ISO-8859-1. -/
def Host.bare : Host Unit where
  getProperty _ := none
  getenv _ := none
  environment _ := none
  nextInt r := (0, r)
  nextIntBelow _ r := (0, r)
  nextIntBelow_lt _ _ h := h
  nanoTime r := (0, r)
  formatNow _ r := (some "1970-01-01 12:00:00", r)
  identityText r := ("zhranklin.powerful.model.PowerfulResponse@0", r)
  doubleText q := if q = 0 then "0.0" else toString q.num ++ "/" ++ toString q.den
  parseDouble _ := none
  statusName code := if code = 200 then some "OK" else
    if code = 404 then some "NOT_FOUND" else
    if code = 500 then some "INTERNAL_SERVER_ERROR" else none
  decodeBytes bytes := String.ofList (bytes.map (fun b => Char.ofNat b.toNat))

variable {ρ : Type}

/-! ### Java text functions -/

def startsWith (s p : String) : Bool := p.toList.isPrefixOf s.toList

/-- `s.substring(n)`. -/
def substring (s : String) (n : ℕ) : String := String.ofList (s.toList.drop n)

/-- `s.split` at one character: trailing empty parts are dropped, unless nothing was split. -/
def split (sep : Char) (s : String) : List String :=
  match s.toList.splitOn sep with
  | [_] => [s]
  | parts => (parts.rdropWhile List.isEmpty).map String.ofList

/-- A text that was joined from parts without the separator is split into them. -/
theorem split_intercalate {sep : Char} {parts : List String} {last : String}
    (hparts : ∀ t ∈ parts ++ [last], sep ∉ t.toList) (hlast : last ≠ "") :
    split sep ((String.singleton sep).intercalate (parts ++ [last])) = parts ++ [last] := by
  have hsplit : ((String.singleton sep).intercalate (parts ++ [last])).toList.splitOn sep =
      (parts ++ [last]).map String.toList := by
    rw [String.toList_intercalate, String.toList_singleton]
    refine List.splitOn_intercalate sep ?_ (by simp)
    intro t ht
    obtain ⟨s, hs, rfl⟩ := List.mem_map.mp ht
    exact hparts s hs
  have hne : last.toList ≠ [] := fun hnil => hlast (String.toList_inj.mp hnil)
  have hdrop : ((parts ++ [last]).map String.toList).rdropWhile List.isEmpty =
      (parts ++ [last]).map String.toList := by
    rw [List.rdropWhile_eq_self_iff]
    intro hparts
    simpa using hne
  have hback : (((parts ++ [last]).map String.toList).rdropWhile List.isEmpty).map String.ofList =
      parts ++ [last] := by
    rw [hdrop, List.map_map]
    simp [Function.comp_def]
  unfold split
  rw [hsplit]
  split
  · rename_i h
    cases parts with
    | nil => rfl
    | cons t parts => simp at h
  · exact hback

/-- `Integer.parseInt`. -/
def parseInt (s : String) : Except Exc ℤ :=
  let digits := match s.toList with
    | '+' :: ds | '-' :: ds => ds
    | ds => ds
  let n : ℤ := digits.foldl (fun n c => 10 * n + (c.toNat - '0'.toNat)) (0 : ℕ)
  let n := if s.toList.head? = some '-' then -n else n
  if digits ≠ [] ∧ digits.all Char.isDigit ∧ -2147483648 ≤ n ∧ n ≤ 2147483647 then .ok n
  else .error (.numberFormat ("For input string: \"" ++ s ++ "\""))

/-- `params.get(0)`. -/
def firstParam : List String → Except Exc String
  | [] => .error (.indexOutOfBounds "Index: 0, Size: 0")
  | p :: _ => .ok p

section javaText
variable (h : Host ρ)

mutual

/-- The text of an object in a string concatenation. -/
def javaText : Json → String
  | .null => "null"
  | .bool b => toString b
  | .int n => toString n
  | .dbl q => h.doubleText q
  | .str s => s
  | .arr xs => "[" ++ javaTexts xs ++ "]"
  | .obj fs => "\x7b" ++ javaFields fs ++ "\x7d"

def javaTexts : List Json → String
  | [] => ""
  | [x] => javaText x
  | x :: y :: xs => javaText x ++ ", " ++ javaTexts (y :: xs)

def javaFields : List (String × Json) → String
  | [] => ""
  | [(k, v)] => k ++ "=" ++ javaText v
  | (k, v) :: f :: fs => k ++ "=" ++ javaText v ++ ", " ++ javaFields (f :: fs)

end

end javaText

/-! ### Scanning a template -/

/-- The characters a dot of a regular expression does not match. -/
def isLineTerminator (c : Char) : Bool :=
  c = '\n' || c = '\r' || c = '\u0085' || c = '\u2028' || c = '\u2029'

/-- How the scan of an expression ends: at its closing braces, at the end of a line, or at
the end of the text. -/
inductive Scan where
  | found (group : List Char)
  | broken
  | ended
deriving DecidableEq

def Scan.cons (c : Char) : Scan → Scan
  | found group => found (c :: group)
  | broken => broken
  | ended => ended

/-- Scan an expression behind its first character. -/
def scanGroup : List Char → Scan
  | [] => .ended
  | c :: r =>
      if c = '}' ∧ r.head? = some '}' then .found []
      else if isLineTerminator c then .broken
      else (scanGroup r).cons c

/-- Scan for an expression that starts here. -/
def scanExpr : List Char → Scan
  | a :: b :: r =>
      if a = '{' ∧ b = '{' then
        match r with
        | [] => .ended
        | c :: r => if isLineTerminator c then .broken else (scanGroup r).cons c
      else .broken
  | _ => .broken

inductive Segment where
  | literal (c : Char)
  | expr (e : List Char)
deriving DecidableEq

/-- The literal characters and the expressions of a template; the first argument counts the
characters of an expression that are still to be skipped. -/
def segments : ℕ → List Char → List Segment
  | _, [] => []
  | k + 1, _ :: r => segments k r
  | 0, c :: r => match scanExpr (c :: r) with
    | .found group => .expr group :: segments (group.length + 3) r
    | _ => .literal c :: segments 0 r

/-- Some opening braces of the text are not closed before its end. -/
def unclosed : ℕ → List Char → Bool
  | _, [] => false
  | k + 1, _ :: r => unclosed k r
  | 0, c :: r => match scanExpr (c :: r) with
    | .found group => unclosed (group.length + 3) r
    | .ended => true
    | .broken => unclosed 0 r

/-! ### Evaluating expressions -/

def isNameChar (c : Char) : Bool := c.isAlpha || c = '-' || c = '_'

/-- Function name and argument text of an expression, if it is well formed. -/
def parseCall (e : List Char) : Option (String × String) :=
  match e.takeWhile isNameChar, e.dropWhile isNameChar with
  | [], _ => none
  | name, '(' :: r =>
      if r.getLast? = some ')' then some (String.ofList name, String.ofList r.dropLast) else none
  | _, _ => none

/-- The value of `header(name)`: the request header and the header of the last response. -/
def headerText (v : View) (name : String) : Except Exc String :=
  match v.requestHeaders with
  | none => .error .nullPointer
  | some headers =>
      let reqHeader := match (headers.lookup name).join with
        | some s => if s = "" then [] else [s]
        | none => []
      let respHeader := ((v.slot.response.responseHeaders.lookup name).join).toList
      .ok (String.intercalate "|" (reqHeader ++ respHeader))

/-- `randomInt` with no, one or two arguments. -/
def randomInt (h : Host ρ) (params : List String) (r : ρ) : Except Exc ℤ × ρ :=
  match params with
  | [] => ((.ok (h.nextInt r).1), (h.nextInt r).2)
  | [p] => match parseInt p with
    | .error e => (.error e, r)
    | .ok n =>
        if n ≤ 0 then (.error (.illegalArgument "bound must be positive"), r)
        else (.ok (h.nextIntBelow n.toNat r).1, (h.nextIntBelow n.toNat r).2)
  | [p, q] => match parseInt p, parseInt q with
    | .error e, _ => (.error e, r)
    | .ok _, .error e => (.error e, r)
    | .ok left, .ok right =>
        if left ≥ right then
          (.error (.illegalArgument ("randomInt range invalid: [" ++ toString left ++ ", " ++
            toString right ++ ")")), r)
        else (.ok (h.nextInt r).1, (h.nextInt r).2)
  | _ => (.error (.illegalArgument ("Illegal arguments for randomInt: [" ++
      String.intercalate ", " params ++ "]")), r)

/-- A given number of random digits. -/
def randomDigits (h : Host ρ) : ℕ → ρ → String × ρ
  | 0, r => ("", r)
  | n + 1, r =>
      let (d, r') := h.nextIntBelow 10 r
      let (ds, r'') := randomDigits h n r'
      (toString d ++ ds, r'')

/-- An expression function that only looks something up under its first argument. -/
def byFirstParam (f : String → Except Exc (Option String)) (params : List String) (r : ρ) :
    Except Exc (Option String) × ρ :=
  (match firstParam params with
    | .error e => .error e
    | .ok p => f p, r)

/-- The table `exprFuncs`; the value of a function is null or a text. -/
def exprFunc (h : Host ρ) (v : View) (functionName : String) :
    Option (List String → ρ → Except Exc (Option String) × ρ) :=
  match functionName with
  | "randomDigits" => some fun params r =>
      match (firstParam params).bind parseInt with
      | .error e => (.error e, r)
      | .ok n => (.ok (some (randomDigits h n.toNat r).1), (randomDigits h n.toNat r).2)
  | "randomInt" => some fun params r =>
      match randomInt h params r with
      | (.error e, r') => (.error e, r')
      | (.ok n, r') => (.ok (some (toString n)), r')
  | "p" => some (byFirstParam fun k =>
      if k = "" then .error (.illegalArgument "key can't be empty") else .ok (h.getProperty k))
  | "param" => some (byFirstParam fun k => .ok (v.params.lookup k).join)
  | "env" => some (byFirstParam fun k => .ok (h.getenv k))
  | "apollo" => some (byFirstParam fun k => .ok (h.environment k))
  | "springEnv" => some (byFirstParam fun k => .ok (h.environment k))
  | "path" => some fun _ r => (.ok (some v.path), r)
  | "timestamp" => some fun params r =>
      let pattern := params.headD "yyyy-MM-dd hh:mm:ss"
      match h.formatNow pattern r with
      | (none, r') => (.error (.illegalArgument "Illegal pattern"), r')
      | (some s, r') => (.ok (some s), r')
  | "header" => some (byFirstParam fun k => (headerText v k).map some)
  | "result" => some fun _ r => (.ok (some (h.identityText r).1), (h.identityText r).2)
  | "resultBody" => some fun _ r =>
      (.ok (if v.slot.response.result = .null then none
        else some (javaText h v.slot.response.result)), r)
  | "statusCode" => some fun _ r => (.ok v.slot.response.status, r)
  | "invokeResult" => some fun _ r => (.ok (some (orNull v.slot.invokeResult)), r)
  | "delay" => some fun _ r => (.ok (some (h.doubleText v.slot.delayMillis)), r)
  | _ => none

/-- The value of an expression (`calc`, a keyword here). -/
def calcExpr (h : Host ρ) (v : View) (expr : List Char) (r : ρ) : Except Exc String × ρ :=
  match parseCall expr with
  | none =>
      (.error (.illegalArgument ("'" ++ String.ofList expr ++ "' is not a valid expression.")), r)
  | some (functionName, paramsStr) => match exprFunc h v functionName with
    | none => (.error (.illegalArgument ("function '" ++ functionName ++ "' not found")), r)
    | some function =>
        let params := if paramsStr = "" then [] else split ',' paramsStr
        match function params r with
        | (.error e, r') => (.error e, r')
        | (.ok result, r') => (.ok (result.getD ""), r')

/-- `Matcher.quoteReplacement`. -/
def quoteReplacement (s : String) : String :=
  String.ofList (s.toList.flatMap fun c => if c = '\\' ∨ c = '$' then ['\\', c] else [c])

/-- What `Matcher.appendReplacement` appends for a text without references to groups: behind a
backslash a character is taken as it is. -/
def appendReplacement (replacement : String) : String := String.ofList (taken replacement.toList)
where
  taken : List Char → List Char
    | [] => []
    | [c] => [c]
    | c :: d :: cs => if c = '\\' then d :: taken cs else c :: taken (d :: cs)

theorem appendReplacement.taken_cons {c : Char} (hc : c ≠ '\\') : ∀ cs : List Char,
    taken (c :: cs) = c :: taken cs
  | [] => rfl
  | _ :: _ => if_neg hc

/-- A quoted text is appended as it was. -/
theorem appendReplacement_quoteReplacement (s : String) : appendReplacement (quoteReplacement s) = s := by
  have htaken : ∀ cs : List Char, appendReplacement.taken
      (cs.flatMap fun c => if c = '\\' ∨ c = '$' then ['\\', c] else [c]) = cs := by
    intro cs
    induction cs with
    | nil => rfl
    | cons c cs ih =>
        rw [List.flatMap_cons]
        by_cases hc : c = '\\' ∨ c = '$'
        · rw [if_pos hc]
          exact congrArg (c :: ·) ih
        · rw [if_neg hc, List.singleton_append, appendReplacement.taken_cons (fun h => hc (Or.inl h)), ih]
  unfold appendReplacement quoteReplacement
  rw [String.toList_ofList, htaken, String.ofList_toList]

/-- Evaluate the segments from left to right. -/
def renderSegments (h : Host ρ) (v : View) : List Segment → ρ → Except Exc String × ρ
  | [], r => (.ok "", r)
  | .literal c :: ss, r => match renderSegments h v ss r with
    | (.ok t, r') => (.ok (String.ofList [c] ++ t), r')
    | (.error e, r') => (.error e, r')
  | .expr e :: ss, r => match calcExpr h v e r with
    | (.error e, r') => (.error e, r')
    | (.ok s, r') => match renderSegments h v ss r' with
      | (.ok t, r'') => (.ok (appendReplacement (quoteReplacement s) ++ t), r'')
      | (.error e, r'') => (.error e, r'')

/-- Render a template. -/
def render (h : Host ρ) (v : View) (source : String) (r : ρ) : Except Exc String × ρ :=
  renderSegments h v (segments 0 source.toList) r

/-- Render a template that may be null. -/
def renderNullable (h : Host ρ) (v : View) (source : Option String) (r : ρ) :
    Except Exc (Option String) × ρ :=
  match source with
  | none => (.ok none, r)
  | some s => match render h v s r with
    | (.ok t, r') => (.ok (some t), r')
    | (.error e, r') => (.error e, r')

theorem renderNullable_ok {h : Host ρ} {v : View} {source text : String} {r r' : ρ}
    (htext : render h v source r = (.ok text, r')) :
    renderNullable h v (some source) r = (.ok (some text), r') := by
  simp only [renderNullable, htext]

/-! ### Rendering in parts -/

theorem scanGroup_append {r u : List Char} (h : scanGroup r ≠ .ended) :
    scanGroup (r ++ u) = scanGroup r := by
  induction r with
  | nil => exact absurd rfl h
  | cons c r ih =>
      rw [List.cons_append]
      unfold scanGroup at h ⊢
      by_cases hclose : c = '}' ∧ r.head? = some '}'
      · have : (r ++ u).head? = some '}' := by
          rw [List.head?_append, hclose.2]; rfl
        rw [if_pos hclose, if_pos ⟨hclose.1, this⟩]
      · rw [if_neg hclose] at h ⊢
        by_cases hlt : isLineTerminator c
        · have hc : c ≠ '}' := by rintro rfl; exact absurd hlt (by decide)
          rw [if_neg (fun h => hc h.1), if_pos hlt, if_pos hlt]
        · rw [if_neg hlt] at h ⊢
          have hr : scanGroup r ≠ .ended := by
            intro he
            rw [he] at h
            exact h rfl
          have hrne : r ≠ [] := by rintro rfl; exact hr rfl
          have hhead : (r ++ u).head? = r.head? := by
            obtain ⟨d, r', rfl⟩ := List.exists_cons_of_ne_nil hrne
            rfl
          rw [hhead, if_neg hclose, if_neg hlt, ih hr]

theorem scanExpr_append {t u : List Char} (hu : u.head? ≠ some '{') (h : scanExpr t ≠ .ended)
    (ht : t ≠ []) : scanExpr (t ++ u) = scanExpr t := by
  match t with
  | [] => exact absurd rfl ht
  | [a] =>
      cases u with
      | nil => rfl
      | cons b u =>
          have hb : b ≠ '{' := by rintro rfl; exact hu rfl
          simp [scanExpr, hb]
  | a :: b :: r =>
      simp only [List.cons_append]
      simp only [scanExpr] at h ⊢
      by_cases hopen : a = '{' ∧ b = '{'
      · rw [if_pos hopen] at h ⊢
        cases r with
        | nil => exact absurd rfl h
        | cons c r =>
            simp only [List.cons_append, if_pos hopen] at h ⊢
            by_cases hlt : isLineTerminator c
            · rw [if_pos hlt, if_pos hlt]
            · rw [if_neg hlt] at h ⊢
              have hr : scanGroup r ≠ .ended := by
                intro he
                rw [he] at h
                exact h rfl
              rw [if_neg hlt, scanGroup_append hr]
      · rw [if_neg hopen, if_neg hopen]

theorem scanGroup_length {r group : List Char} (h : scanGroup r = .found group) :
    group.length + 2 ≤ r.length := by
  induction r generalizing group with
  | nil => cases h
  | cons c r ih =>
      unfold scanGroup at h
      split at h
      · rename_i hclose
        cases h
        cases r with
        | nil => cases hclose.2
        | cons d r => simp
      · split at h
        · cases h
        · cases hr : scanGroup r with
          | found g =>
              rw [hr] at h
              cases h
              have := ih hr
              simp only [List.length_cons]
              omega
          | broken => rw [hr] at h; cases h
          | ended => rw [hr] at h; cases h

theorem scanExpr_length {t group : List Char} (h : scanExpr t = .found group) :
    group.length + 4 ≤ t.length := by
  match t with
  | [] | [_] => cases h
  | a :: b :: r =>
      simp only [scanExpr] at h
      split at h
      · cases r with
        | nil => cases h
        | cons c r =>
            simp only at h
            split at h
            · cases h
            · cases hr : scanGroup r with
              | found g =>
                  rw [hr] at h
                  cases h
                  have := scanGroup_length hr
                  simp only [List.length_cons]
                  omega
              | broken => rw [hr] at h; cases h
              | ended => rw [hr] at h; cases h
      · cases h

theorem segments_cons (c : Char) (r : List Char) :
    segments 0 (c :: r) = match scanExpr (c :: r) with
      | .found group => .expr group :: segments (group.length + 3) r
      | _ => .literal c :: segments 0 r := by
  rw [segments]

/-- Behind a template that closes what it opens, a text is cut on its own. -/
theorem segments_append {t u : List Char} {k : ℕ} (hu : u.head? ≠ some '{') (hk : k ≤ t.length)
    (h : unclosed k t = false) : segments k (t ++ u) = segments k t ++ segments 0 u := by
  induction t generalizing k with
  | nil =>
      obtain rfl : k = 0 := by simpa using hk
      rfl
  | cons c r ih =>
      cases k with
      | succ k => exact ih (by simpa using hk) h
      | zero =>
          unfold unclosed at h
          have hne : scanExpr (c :: r) ≠ .ended := by
            intro he
            rw [he] at h
            cases h
          have happ := scanExpr_append hu hne (List.cons_ne_nil c r)
          rw [List.cons_append] at happ ⊢
          rw [segments_cons, segments_cons, happ]
          cases hs : scanExpr (c :: r) with
          | found group =>
              rw [hs] at h
              have hlen := scanExpr_length hs
              simp only [List.length_cons] at hlen
              simp only [List.cons_append]
              rw [ih (by omega) h]
          | broken =>
              rw [hs] at h
              simp only [List.cons_append]
              rw [ih (Nat.zero_le _) h]
          | ended => exact absurd hs hne

theorem renderSegments_append (h : Host ρ) (v : View) (ss ss' : List Segment) (r : ρ) :
    renderSegments h v (ss ++ ss') r =
      match renderSegments h v ss r with
      | (.error e, r') => (.error e, r')
      | (.ok t, r') => match renderSegments h v ss' r' with
        | (.error e, r'') => (.error e, r'')
        | (.ok t', r'') => (.ok (t ++ t'), r'') := by
  induction ss generalizing r with
  | nil =>
      simp only [List.nil_append, renderSegments]
      rcases renderSegments h v ss' r with ⟨_ | t, r'⟩ <;> simp
  | cons s ss ih =>
      cases s with
      | literal c =>
          simp only [List.cons_append, renderSegments, ih]
          rcases renderSegments h v ss r with ⟨_ | t, r'⟩
          · rfl
          · dsimp only
            rcases renderSegments h v ss' r' with ⟨_ | t', r''⟩ <;> simp [String.append_assoc]
      | expr e =>
          simp only [List.cons_append, renderSegments, appendReplacement_quoteReplacement]
          rcases calcExpr h v e r with ⟨_ | s, r₁⟩
          · rfl
          · simp only [ih]
            rcases renderSegments h v ss r₁ with ⟨_ | t, r'⟩
            · rfl
            · dsimp only
              rcases renderSegments h v ss' r' with ⟨_ | t', r''⟩ <;> simp [String.append_assoc]

/-! ### The parts of a template -/

/-- The part of a template that a segment stands for. -/
def Segment.source : Segment → List Char
  | literal c => [c]
  | expr e => '{' :: '{' :: e ++ ['}', '}']

theorem scanGroup_source {r group : List Char} (h : scanGroup r = .found group) :
    ∃ rest, r = group ++ '}' :: '}' :: rest := by
  induction r generalizing group with
  | nil => cases h
  | cons c r ih =>
      unfold scanGroup at h
      split at h
      · rename_i hclose
        cases h
        obtain ⟨rfl, hhead⟩ := hclose
        obtain ⟨rest, rfl⟩ := List.head?_eq_some_iff.mp hhead
        exact ⟨rest, rfl⟩
      · split at h
        · cases h
        · cases hr : scanGroup r with
          | found g =>
              rw [hr] at h
              cases h
              obtain ⟨rest, rfl⟩ := ih hr
              exact ⟨rest, rfl⟩
          | broken => rw [hr] at h; cases h
          | ended => rw [hr] at h; cases h

theorem scanExpr_source {t group : List Char} (h : scanExpr t = .found group) :
    ∃ rest, t = (Segment.expr group).source ++ rest := by
  match t with
  | [] | [_] => cases h
  | a :: b :: r =>
      simp only [scanExpr] at h
      split at h
      · rename_i hopen
        obtain ⟨rfl, rfl⟩ := hopen
        cases r with
        | nil => cases h
        | cons c r =>
            simp only at h
            split at h
            · cases h
            · cases hr : scanGroup r with
              | found g =>
                  rw [hr] at h
                  cases h
                  obtain ⟨rest, rfl⟩ := scanGroup_source hr
                  exact ⟨rest, by simp [Segment.source]⟩
              | broken => rw [hr] at h; cases h
              | ended => rw [hr] at h; cases h
      · cases h

/-- The segments make up the template. -/
theorem segments_source : ∀ (k : ℕ) (cs : List Char),
    (segments k cs).flatMap Segment.source = cs.drop k
  | _, [] => by simp [segments]
  | k + 1, _ :: r => by
      rw [segments, segments_source k r]
      rfl
  | 0, c :: r => by
      rw [segments_cons]
      cases hs : scanExpr (c :: r) with
      | found group =>
          obtain ⟨rest, hrest⟩ := scanExpr_source hs
          have hlen : (Segment.expr group).source.length = group.length + 4 := by
            simp [Segment.source]
          have hdrop : r.drop (group.length + 3) = rest := by
            have h4 : (c :: r).drop (group.length + 4) = rest := by
              rw [hrest, ← hlen, List.drop_left]
            exact h4
          simp only [List.flatMap_cons]
          rw [segments_source, hdrop, ← hrest]
          rfl
      | broken =>
          simp only [List.flatMap_cons]
          rw [segments_source]
          rfl
      | ended =>
          simp only [List.flatMap_cons]
          rw [segments_source]
          rfl

def Segment.isExpr : Segment → Bool
  | literal _ => false
  | expr _ => true

/-- Whether a template contains an expression. -/
def hasExpr (source : String) : Bool := (segments 0 source.toList).any Segment.isExpr

theorem renderSegments_literal (h : Host ρ) (v : View) (r : ρ) : ∀ ss : List Segment,
    ss.any Segment.isExpr = false →
      renderSegments h v ss r = (.ok (String.ofList (ss.flatMap Segment.source)), r)
  | [], _ => rfl
  | .literal c :: ss, hss => by
      have htail : ss.any Segment.isExpr = false := by simpa [Segment.isExpr] using hss
      rw [renderSegments, renderSegments_literal h v r ss htail]
      simp only [List.flatMap_cons, Segment.source, String.ofList_append]
  | .expr e :: ss, hss => by simp [Segment.isExpr] at hss

/-- A template without expressions renders to itself. -/
theorem render_literal (h : Host ρ) (v : View) {source : String} (hsource : hasExpr source = false)
    (r : ρ) : render h v source r = (.ok source, r) := by
  unfold render
  rw [renderSegments_literal h v r _ hsource, segments_source]
  simp

/-- Where no value contains a brace, a rendered text has less of them than its template. -/
theorem renderSegments_braces {h : Host ρ} {v : View}
    (hvalues : ∀ e r text r', calcExpr h v e r = (.ok text, r') → '{' ∉ text.toList) :
    ∀ (ss : List Segment) {r r' : ρ} {out : String}, renderSegments h v ss r = (.ok out, r') →
      out.toList.count '{' + 2 * ss.countP Segment.isExpr ≤ (ss.flatMap Segment.source).count '{'
  | [], r, r', out, hrun => by
      obtain ⟨hout, -⟩ := Prod.mk.inj hrun
      obtain rfl := Except.ok.inj hout
      simp
  | .literal c :: ss, r, r', out, hrun => by
      rw [renderSegments] at hrun
      split at hrun
      · rename_i t r₁ htail
        obtain ⟨hout, -⟩ := Prod.mk.inj hrun
        obtain rfl := Except.ok.inj hout
        have ih := renderSegments_braces hvalues ss htail
        rw [List.countP_cons_of_neg (by simp [Segment.isExpr])]
        simp only [List.flatMap_cons, Segment.source, String.toList_append, String.toList_ofList,
          List.count_append]
        omega
      · cases hrun
  | .expr e :: ss, r, r', out, hrun => by
      rw [renderSegments] at hrun
      split at hrun
      · cases hrun
      · rename_i text r₁ hvalue
        split at hrun
        · rename_i t r₂ htail
          obtain ⟨hout, -⟩ := Prod.mk.inj hrun
          obtain rfl := Except.ok.inj hout
          have ih := renderSegments_braces hvalues ss htail
          have htext : text.toList.count '{' = 0 := List.count_eq_zero.mpr (hvalues e _ _ _ hvalue)
          rw [List.countP_cons_of_pos rfl, appendReplacement_quoteReplacement]
          simp only [List.flatMap_cons, Segment.source, String.toList_append, List.count_append,
            List.cons_append, List.count_cons_self]
          omega
        · cases hrun

theorem render_ne_source {h : Host ρ} {v : View}
    (hvalues : ∀ e r text r', calcExpr h v e r = (.ok text, r') → '{' ∉ text.toList)
    {source out : String} (hsource : hasExpr source = true) {r r' : ρ}
    (hrun : render h v source r = (.ok out, r')) : out ≠ source := by
  rintro rfl
  have hbraces := renderSegments_braces hvalues _ hrun
  have hexpr : 0 < (segments 0 out.toList).countP Segment.isExpr :=
    List.countP_pos_iff.mpr (List.any_eq_true.mp hsource)
  rw [segments_source, List.drop_zero] at hbraces
  omega

/-- What `{{resultBody()}}` prints. -/
def resultBodyText (h : Host ρ) (v : View) : String :=
  if v.slot.response.result = .null then "" else javaText h v.slot.response.result

/-- **Suffix law.** -/
theorem render_append_suffix (h : Host ρ) (v : View) {tmpl : String}
    (hc : unclosed 0 tmpl.toList = false) (r : ρ) :
    render h v (tmpl ++ " -> {{resultBody()}}") r =
      match render h v tmpl r with
      | (.error e, r') => (.error e, r')
      | (.ok t, r') => (.ok (t ++ " -> " ++ resultBodyText h v), r') := by
  have hseg : segments 0 " -> {{resultBody()}}".toList =
      [.literal ' ', .literal '-', .literal '>', .literal ' ', .expr "resultBody()".toList] := by
    decide
  have htail : ∀ r', renderSegments h v (segments 0 " -> {{resultBody()}}".toList) r' =
      (.ok (" -> " ++ resultBodyText h v), r') := by
    intro r'
    rw [hseg]
    have hcall : parseCall "resultBody()".toList = some ("resultBody", "") := by decide
    have harrow : " -> " = String.ofList [' '] ++ (String.ofList ['-'] ++ (String.ofList ['>'] ++
        String.ofList [' '])) := by decide
    have hvalue : (if v.slot.response.result = .null then none
        else some (javaText h v.slot.response.result)).getD "" = resultBodyText h v := by
      unfold resultBodyText
      split <;> rfl
    simp only [renderSegments, calcExpr, hcall, exprFunc, hvalue, harrow, String.append_assoc,
      String.append_empty, appendReplacement_quoteReplacement]
  unfold render
  rw [String.toList_append, segments_append (by decide) (Nat.zero_le _) hc,
    renderSegments_append]
  rcases renderSegments h v (segments 0 tmpl.toList) r with ⟨_ | t, r'⟩
  · rfl
  · simp only [htail, String.append_assoc]

/-! ### Rendering fails by the text alone -/

/-- Whether there is a value. -/
def returns {α : Type} (out : Except Exc α) : Prop := ∃ a, out = .ok a

theorem not_returns_error {α : Type} (e : Exc) : ¬ returns (.error e : Except Exc α) := by
  rintro ⟨a, ha⟩
  cases ha

/-- Whether a pattern is a date format does not depend on the date. -/
def Host.JudgesFormats (h : Host ρ) : Prop :=
  ∀ pattern r r', (h.formatNow pattern r).1.isSome = (h.formatNow pattern r').1.isSome

section uniform
variable {h : Host ρ} (hformats : h.JudgesFormats) {v v' : View}
  (hmap : v.requestHeaders.isSome = v'.requestHeaders.isSome)

/-- Two functions that return for the same parameters. -/
def SameDomain (f f' : List String → ρ → Except Exc (Option String) × ρ) : Prop :=
  ∀ params r r', returns (f params r).1 → returns (f' params r').1

theorem byFirstParam_sameDomain {f f' : String → Except Exc (Option String)}
    (hf : ∀ k, returns (f k) → returns (f' k)) :
    SameDomain (byFirstParam f : List String → ρ → _) (byFirstParam f') := by
  intro params r r' h
  unfold byFirstParam at h ⊢
  cases hparam : firstParam params with
  | error e =>
      rw [hparam] at h
      exact (not_returns_error _ h).elim
  | ok k =>
      rw [hparam] at h
      exact hf k h

/-- A random number is drawn unless the parameters forbid it. -/
theorem randomInt_sameDomain (params : List String) (r r' : ρ)
    (hr : returns (randomInt h params r).1) : returns (randomInt h params r').1 := by
  unfold randomInt at hr ⊢
  rcases params with _ | ⟨p, _ | ⟨q, _ | ⟨x, ps⟩⟩⟩
  · exact ⟨_, rfl⟩
  · simp only at hr ⊢
    cases hp : parseInt p with
    | error e =>
        rw [hp] at hr
        exact hr
    | ok n =>
        rw [hp] at hr
        simp only at hr ⊢
        by_cases hn : n ≤ 0
        · rw [if_pos hn] at hr
          exact (not_returns_error _ hr).elim
        · rw [if_neg hn]
          exact ⟨_, rfl⟩
  · simp only at hr ⊢
    cases hp : parseInt p with
    | error e =>
        rw [hp] at hr
        exact hr
    | ok left =>
        cases hq : parseInt q with
        | error e =>
            rw [hp, hq] at hr
            exact hr
        | ok right =>
            rw [hp, hq] at hr
            simp only at hr ⊢
            by_cases hlt : left ≥ right
            · rw [if_pos hlt] at hr
              exact (not_returns_error _ hr).elim
            · rw [if_neg hlt]
              exact ⟨_, rfl⟩
  · exact hr

include hformats hmap in
theorem exprFunc_uniform {name : String} {f : List String → ρ → Except Exc (Option String) × ρ}
    (hf : exprFunc h v name = some f) : ∃ f', exprFunc h v' name = some f' ∧ SameDomain f f' := by
  unfold exprFunc at hf ⊢
  split at hf
  · obtain rfl := Option.some.inj hf
    refine ⟨_, rfl, fun params r r' hr => ?_⟩
    simp only at hr ⊢
    split at hr
    · exact hr
    · exact ⟨_, rfl⟩
  · obtain rfl := Option.some.inj hf
    refine ⟨_, rfl, fun params r r' hr => ?_⟩
    simp only at hr ⊢
    have hdomain := randomInt_sameDomain (h := h) params r r'
    split at hr
    · exact (not_returns_error _ hr).elim
    · rename_i n r₁ hrun
      obtain ⟨n', hn'⟩ := hdomain (by rw [hrun]; exact ⟨n, rfl⟩)
      split
      · rename_i e r₂ hrun'
        rw [hrun'] at hn'
        cases hn'
      · exact ⟨_, rfl⟩
  · obtain rfl := Option.some.inj hf
    refine ⟨_, rfl, byFirstParam_sameDomain fun k hk => hk⟩
  · obtain rfl := Option.some.inj hf
    refine ⟨_, rfl, byFirstParam_sameDomain fun k _ => ⟨_, rfl⟩⟩
  · obtain rfl := Option.some.inj hf
    refine ⟨_, rfl, byFirstParam_sameDomain fun k hk => hk⟩
  · obtain rfl := Option.some.inj hf
    refine ⟨_, rfl, byFirstParam_sameDomain fun k hk => hk⟩
  · obtain rfl := Option.some.inj hf
    refine ⟨_, rfl, byFirstParam_sameDomain fun k hk => hk⟩
  · obtain rfl := Option.some.inj hf
    exact ⟨_, rfl, fun _ _ _ _ => ⟨_, rfl⟩⟩
  · obtain rfl := Option.some.inj hf
    refine ⟨_, rfl, fun params r r' hr => ?_⟩
    simp only at hr ⊢
    have hlegal := hformats (params.headD "yyyy-MM-dd hh:mm:ss") r r'
    split at hr
    · exact (not_returns_error _ hr).elim
    · rename_i text r₁ hrun
      rw [hrun] at hlegal
      split
      · rename_i r₂ hrun'
        rw [hrun'] at hlegal
        cases hlegal
      · exact ⟨_, rfl⟩
  · obtain rfl := Option.some.inj hf
    refine ⟨_, rfl, byFirstParam_sameDomain fun k hk => ?_⟩
    unfold headerText at hk ⊢
    cases hv : v.requestHeaders with
    | none =>
        rw [hv] at hk
        exact (not_returns_error _ hk).elim
    | some headers =>
        rw [hv] at hmap
        obtain ⟨headers', hv'⟩ := Option.isSome_iff_exists.mp hmap.symm
        rw [hv']
        exact ⟨_, rfl⟩
  · obtain rfl := Option.some.inj hf
    exact ⟨_, rfl, fun _ _ _ _ => ⟨_, rfl⟩⟩
  · obtain rfl := Option.some.inj hf
    exact ⟨_, rfl, fun _ _ _ _ => ⟨_, rfl⟩⟩
  · obtain rfl := Option.some.inj hf
    exact ⟨_, rfl, fun _ _ _ _ => ⟨_, rfl⟩⟩
  · obtain rfl := Option.some.inj hf
    exact ⟨_, rfl, fun _ _ _ _ => ⟨_, rfl⟩⟩
  · obtain rfl := Option.some.inj hf
    exact ⟨_, rfl, fun _ _ _ _ => ⟨_, rfl⟩⟩
  · cases hf

include hformats hmap in
theorem calcExpr_uniform (e : List Char) (r r' : ρ) :
    returns (calcExpr h v e r).1 → returns (calcExpr h v' e r').1 := by
  intro hr
  unfold calcExpr at hr ⊢
  cases hcall : parseCall e with
  | none =>
      rw [hcall] at hr
      exact hr
  | some call =>
      rw [hcall] at hr
      simp only at hr ⊢
      cases hf : exprFunc h v call.1 with
      | none =>
          rw [hf] at hr
          exact (not_returns_error _ hr).elim
      | some f =>
          obtain ⟨f', hf', hdomain⟩ := exprFunc_uniform hformats hmap hf
          rw [hf] at hr
          rw [hf']
          simp only at hr ⊢
          have hreturns := hdomain (if call.2 = "" then [] else split ',' call.2) r r'
          split at hr
          · exact (not_returns_error _ hr).elim
          · rename_i result r₁ hrun
            obtain ⟨result', hrun'⟩ := hreturns (by rw [hrun]; exact ⟨result, rfl⟩)
            split
            · rename_i e r₂ herror
              rw [herror] at hrun'
              cases hrun'
            · exact ⟨_, rfl⟩

include hformats hmap in
theorem renderSegments_uniform : ∀ (ss : List Segment) (r r' : ρ),
    returns (renderSegments h v ss r).1 → returns (renderSegments h v' ss r').1
  | [], _, _, _ => ⟨"", rfl⟩
  | .literal c :: ss, r, r', hr => by
      have ih := renderSegments_uniform ss r r'
      unfold renderSegments at hr ⊢
      split at hr
      · rename_i text r₁ hrun
        obtain ⟨text', hrun'⟩ := ih (by rw [hrun]; exact ⟨text, rfl⟩)
        split
        · exact ⟨_, rfl⟩
        · rename_i e r₂ herror
          rw [herror] at hrun'
          cases hrun'
      · exact (not_returns_error _ hr).elim
  | .expr e :: ss, r, r', hr => by
      have hcalc := calcExpr_uniform hformats hmap e r r'
      unfold renderSegments at hr ⊢
      split at hr
      · exact (not_returns_error _ hr).elim
      · rename_i value r₁ hvalue
        obtain ⟨value', hvalue'⟩ := hcalc (by rw [hvalue]; exact ⟨value, rfl⟩)
        split
        · rename_i e r₂ herror
          rw [herror] at hvalue'
          cases hvalue'
        · rename_i value₂ r₂ _
          have ih := renderSegments_uniform ss r₁ r₂
          split at hr
          · rename_i text r₃ hrun
            obtain ⟨text', hrun'⟩ := ih (by rw [hrun]; exact ⟨text, rfl⟩)
            split
            · exact ⟨_, rfl⟩
            · rename_i e r₄ herror
              rw [herror] at hrun'
              cases hrun'
          · exact (not_returns_error _ hr).elim

include hformats hmap in
theorem renderNullable_uniform (source : Option String) (r r' : ρ) :
    returns (renderNullable h v source r).1 → returns (renderNullable h v' source r').1 := by
  intro hr
  cases source with
  | none => exact ⟨none, rfl⟩
  | some text =>
      have hsegments := renderSegments_uniform hformats hmap (segments 0 text.toList) r r'
      unfold renderNullable render at hr ⊢
      simp only at hr ⊢
      split at hr
      · rename_i t r₁ hrun
        obtain ⟨t', hrun'⟩ := hsegments (by rw [hrun]; exact ⟨t, rfl⟩)
        split
        · exact ⟨_, rfl⟩
        · rename_i e r₂ herror
          rw [herror] at hrun'
          cases hrun'
      · exact (not_returns_error _ hr).elim

end uniform

end Powerful
