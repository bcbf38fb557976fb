import Mathlib
import Powerful.StringRenderer

/-! # The grammar of templates

A template is literal text with expressions `{{name(args)}}` in it.  `Literal` and `Expr` are
parts that are well formed by themselves: a literal opens no two braces, and an expression names
a function that exists and closes no brace within its arguments.  `Template.value` is what a
template stands for: its literals and the values of its expressions, in order.

The scanner takes the first two opening braces that it finds.  So `render` computes the value of
a template unless a literal ends with an opening brace right before an expression
(`render_source`); there the expression begins one brace too early. -/

namespace Powerful

variable {ρ : Type}

/-! ### Parts of a template -/

/-- The keys of `exprFuncs`. -/
def exprNames : List String :=
  ["randomDigits", "randomInt", "p", "param", "env", "apollo", "springEnv", "path", "timestamp",
    "header", "result", "resultBody", "statusCode", "invokeResult", "delay"]

/-- Literal text of a template. -/
structure Literal where
  text : List Char
  plain : ¬ ['{', '{'] <:+: text

/-- An expression of a template. -/
structure Expr where
  name : String
  args : String
  known : name ∈ exprNames
  closed : ∀ c ∈ args.toList, c ≠ '}' ∧ isLineTerminator c = false

/-- Literals with the expressions behind them, and the last literal. -/
structure Template where
  parts : List (Literal × Expr)
  last : Literal

namespace Expr
variable (e : Expr)

/-- The text between the braces. -/
def call : List Char := e.name.toList ++ '(' :: e.args.toList ++ [')']

def source : List Char := '{' :: '{' :: e.call ++ ['}', '}']

def params : List String := if e.args = "" then [] else split ',' e.args

/-- What the function returns for the arguments, null as the empty text. -/
def value (h : Host ρ) (v : View) (r : ρ) : Except Exc String × ρ :=
  match exprFunc h v e.name with
  | none => (.error (.illegalArgument ("function '" ++ e.name ++ "' not found")), r)
  | some function => ((function e.params r).1.map fun result => result.getD "", (function e.params r).2)

end Expr

namespace Template

def sourceOf (last : Literal) : List (Literal × Expr) → List Char
  | [] => last.text
  | (l, e) :: ps => l.text ++ (e.source ++ sourceOf last ps)

/-- The text of the template. -/
def source (tm : Template) : String := String.ofList (sourceOf tm.last tm.parts)

def valueOf (h : Host ρ) (v : View) (last : Literal) : List (Literal × Expr) → ρ →
    Except Exc String × ρ
  | [], r => (.ok (String.ofList last.text), r)
  | (l, e) :: ps, r => match e.value h v r with
    | (.error x, r) => (.error x, r)
    | (.ok s, r) => match valueOf h v last ps r with
      | (.error x, r) => (.error x, r)
      | (.ok t, r) => (.ok (String.ofList l.text ++ s ++ t), r)

/-- The literals and the values of the expressions, in order. -/
def value (h : Host ρ) (v : View) (tm : Template) (r : ρ) : Except Exc String × ρ :=
  valueOf h v tm.last tm.parts r

/-- No literal ends with an opening brace before an expression. -/
def Separated (tm : Template) : Prop := ∀ p ∈ tm.parts, p.1.text.getLast? ≠ some '{'

end Template

/-! ### Scanning the parts -/

theorem segments_drop : ∀ (k : ℕ) (cs : List Char), segments k cs = segments 0 (cs.drop k)
  | 0, _ => rfl
  | _ + 1, [] => rfl
  | k + 1, _ :: r => segments_drop k r

/-- An expression starts with two opening braces. -/
theorem scanExpr_broken {c : Char} {r : List Char} (h : ¬ (c = '{' ∧ r.head? = some '{')) :
    scanExpr (c :: r) = .broken := by
  cases r with
  | nil => rfl
  | cons d r =>
      have hopen : ¬ (c = '{' ∧ d = '{') := fun hcd => h ⟨hcd.1, congrArg some hcd.2⟩
      simp only [scanExpr, if_neg hopen]

/-- A literal is scanned character by character. -/
theorem segments_literal : ∀ {l u : List Char}, ¬ ['{', '{'] <:+: l →
    ¬ (l.getLast? = some '{' ∧ u.head? = some '{') →
      segments 0 (l ++ u) = l.map Segment.literal ++ segments 0 u
  | [], u, _, _ => rfl
  | c :: l, u, hplain, hborder => by
      have hnext : ¬ (c = '{' ∧ (l ++ u).head? = some '{') := by
        rintro ⟨rfl, hhead⟩
        cases l with
        | nil => exact hborder ⟨rfl, hhead⟩
        | cons d l =>
            obtain rfl := Option.some.inj hhead
            exact hplain ⟨[], l, rfl⟩
      have hrest : segments 0 (l ++ u) = l.map Segment.literal ++ segments 0 u := by
        refine segments_literal (fun hinner => hplain (List.infix_cons hinner)) fun hlast => ?_
        cases l with
        | nil => cases hlast.1
        | cons d l => exact hborder hlast
      rw [List.cons_append, segments_cons, scanExpr_broken hnext, List.map_cons, List.cons_append, hrest]

/-- A group without a closing brace ends at the first two of them. -/
theorem scanGroup_closed : ∀ {g : List Char} (u : List Char),
    (∀ c ∈ g, c ≠ '}' ∧ isLineTerminator c = false) → scanGroup (g ++ '}' :: '}' :: u) = .found g
  | [], u, _ => rfl
  | c :: g, u, hg => by
      obtain ⟨hc, hline⟩ := hg c List.mem_cons_self
      have ih := scanGroup_closed u fun d hd => hg d (List.mem_cons_of_mem c hd)
      rw [List.cons_append]
      unfold scanGroup
      rw [if_neg fun hclose => hc hclose.1, if_neg (by rw [hline]; exact Bool.false_ne_true), ih]
      rfl

theorem scanExpr_group {c : Char} {g : List Char} (u : List Char)
    (hg : ∀ d ∈ c :: g, d ≠ '}' ∧ isLineTerminator d = false) :
    scanExpr ('{' :: '{' :: (c :: g ++ '}' :: '}' :: u)) = .found (c :: g) := by
  have hline : ¬ isLineTerminator c = true := by
    rw [(hg c List.mem_cons_self).2]
    exact Bool.false_ne_true
  have htail := scanGroup_closed u fun d hd => hg d (List.mem_cons_of_mem c hd)
  rw [List.cons_append]
  simp only [scanExpr, and_self, if_true, if_neg hline, htail, Scan.cons]

namespace Expr
variable (e : Expr)

/-- The names of the functions consist of letters. -/
theorem name_chars : ∀ c ∈ e.name.toList, isNameChar c = true := by
  have hall : exprNames.all (fun name => name.toList.all isNameChar) = true := by decide
  exact List.all_eq_true.mp (List.all_eq_true.mp hall e.name e.known)

theorem name_ne_nil : e.name.toList ≠ [] := by
  have hall : exprNames.all (fun name => !name.toList.isEmpty) = true := by decide
  have hname := List.all_eq_true.mp hall e.name e.known
  intro hnil
  rw [hnil] at hname
  cases hname

/-- Characters among which there is no closing brace and no line terminator. -/
theorem closed_of {p : Char → Bool}
    (hp : ['}', '\n', '\r', '\u0085', '\u2028', '\u2029'].any p = false) {c : Char} (h : p c = true) :
    c ≠ '}' ∧ isLineTerminator c = false := by
  rw [List.any_eq_false] at hp
  constructor
  · rintro rfl
    exact hp '}' List.mem_cons_self h
  · rw [Bool.eq_false_iff]
    intro hline
    simp only [isLineTerminator, Bool.or_eq_true, decide_eq_true_eq] at hline
    rcases hline with (((rfl | rfl) | rfl) | rfl) | rfl <;> exact hp _ (by decide) h

theorem call_closed : ∀ c ∈ e.call, c ≠ '}' ∧ isLineTerminator c = false := by
  intro c hc
  simp only [call, List.append_assoc, List.cons_append, List.mem_append, List.mem_cons,
    List.not_mem_nil, or_false] at hc
  rcases hc with hc | rfl | hc | rfl
  · exact closed_of (by decide) (e.name_chars c hc)
  · decide
  · exact e.closed c hc
  · decide

/-- An expression is scanned as one segment. -/
theorem segments_source (u : List Char) :
    segments 0 (e.source ++ u) = .expr e.call :: segments 0 u := by
  obtain ⟨c, g, hcall⟩ : ∃ c g, e.call = c :: g := by
    obtain ⟨c, name, hname⟩ := List.exists_cons_of_ne_nil e.name_ne_nil
    exact ⟨c, _, by rw [call, hname]; rfl⟩
  have hclosed := e.call_closed
  rw [hcall] at hclosed
  have hsource : e.source ++ u = '{' :: '{' :: (c :: g ++ '}' :: '}' :: u) := by
    simp [source, hcall]
  have hskip : ('{' :: (c :: g ++ '}' :: '}' :: u)).drop ((c :: g).length + 3) = u := by
    have hlen : ('{' :: (c :: g ++ ['}', '}'])).length = (c :: g).length + 3 := by simp
    have happ : '{' :: (c :: g ++ '}' :: '}' :: u) = '{' :: (c :: g ++ ['}', '}']) ++ u := by simp
    rw [happ, ← hlen, List.drop_left]
  rw [hsource, segments_cons, scanExpr_group u hclosed]
  simp only
  rw [segments_drop, hskip, hcall]

/-- Name and arguments are found again. -/
theorem parseCall_call : parseCall e.call = some (e.name, e.args) := by
  have hparen : isNameChar '(' = false := by decide
  have htake : e.call.takeWhile isNameChar = e.name.toList := by
    rw [call, List.append_assoc, List.takeWhile_append_of_pos e.name_chars, List.cons_append,
      List.takeWhile_cons_of_neg (by rw [hparen]; exact Bool.false_ne_true), List.append_nil]
  have hdrop : e.call.dropWhile isNameChar = '(' :: (e.args.toList ++ [')']) := by
    rw [call, List.append_assoc, List.dropWhile_append_of_pos e.name_chars, List.cons_append,
      List.dropWhile_cons_of_neg (by rw [hparen]; exact Bool.false_ne_true)]
  obtain ⟨c, name, hname⟩ := List.exists_cons_of_ne_nil e.name_ne_nil
  unfold parseCall
  rw [htake, hdrop, hname]
  simp only
  rw [if_pos (List.getLast?_concat ..), List.dropLast_concat, ← hname, String.ofList_toList,
    String.ofList_toList]

theorem calcExpr_call (h : Host ρ) (v : View) (r : ρ) :
    calcExpr h v e.call r = e.value h v r := by
  unfold calcExpr value
  rw [e.parseCall_call]
  simp only
  cases exprFunc h v e.name with
  | none => rfl
  | some function =>
      simp only [params]
      cases function (if e.args = "" then [] else split ',' e.args) r with
      | mk out r' => cases out <;> rfl

end Expr

/-! ### Rendering a template -/

theorem renderSegments_chars (h : Host ρ) (v : View) (ss : List Segment) (r : ρ) :
    ∀ l : List Char, renderSegments h v (l.map Segment.literal ++ ss) r =
      ((renderSegments h v ss r).1.map fun t => String.ofList l ++ t, (renderSegments h v ss r).2)
  | [] => by
      rw [List.map_nil, List.nil_append]
      cases renderSegments h v ss r with
      | mk out r' => cases out <;> simp [Except.map]
  | c :: l => by
      rw [List.map_cons, List.cons_append, renderSegments, renderSegments_chars h v ss r l]
      cases renderSegments h v ss r with
      | mk out r' =>
          cases out with
          | error x => rfl
          | ok t =>
              simp only [Except.map]
              rw [← String.append_assoc, ← String.ofList_append]
              rfl

theorem renderSegments_sourceOf (h : Host ρ) (v : View) (last : Literal) :
    ∀ (ps : List (Literal × Expr)) (r : ρ), (∀ p ∈ ps, p.1.text.getLast? ≠ some '{') →
      renderSegments h v (segments 0 (Template.sourceOf last ps)) r = Template.valueOf h v last ps r
  | [], r, _ => by
      have hsegments := segments_literal (u := []) last.plain fun hborder => by cases hborder.2
      rw [List.append_nil] at hsegments
      rw [Template.sourceOf, hsegments, renderSegments_chars]
      simp [Template.valueOf, segments, renderSegments, Except.map]
  | (l, e) :: ps, r, hps => by
      have hborder : ¬ (l.text.getLast? = some '{' ∧
          (e.source ++ Template.sourceOf last ps).head? = some '{') :=
        fun hlast => hps (l, e) List.mem_cons_self hlast.1
      have ih := fun r => renderSegments_sourceOf h v last ps r fun p hp =>
        hps p (List.mem_cons_of_mem _ hp)
      rw [Template.sourceOf, segments_literal l.plain hborder, renderSegments_chars, e.segments_source,
        renderSegments, e.calcExpr_call, Template.valueOf]
      cases e.value h v r with
      | mk out r₁ =>
          cases out with
          | error x => rfl
          | ok s =>
              simp only
              rw [ih r₁]
              cases Template.valueOf h v last ps r₁ with
              | mk out r₂ =>
                  cases out with
                  | error x => rfl
                  | ok t => simp only [Except.map, String.append_assoc, appendReplacement_quoteReplacement]

/-- **Rendering**: a template whose literals do not end with an opening brace before an expression
renders to its value. -/
theorem render_source (h : Host ρ) (v : View) {tm : Template} (hseparated : tm.Separated) (r : ρ) :
    render h v tm.source r = tm.value h v r := by
  unfold render Template.source
  rw [String.toList_ofList]
  exact renderSegments_sourceOf h v tm.last tm.parts r hseparated

/-! ### The path in a template -/

def pathExpr : Expr where
  name := "path"
  args := ""
  known := by decide
  closed := fun _ hc => by cases hc

/-- `{{path()}}` behind a literal. -/
def pathTemplate (text : List Char) (hplain : ¬ ['{', '{'] <:+: text) : Template where
  parts := [(⟨text, hplain⟩, pathExpr)]
  last := ⟨[], by decide⟩

def pathView : View where
  requestHeaders := some ∅
  path := "\x7b\x7benv(APP)\x7d\x7d$1"
  params := ∅
  slot := {}

/-- A path that looks like an expression is inserted as it stands. -/
theorem render_source_sample :
    render Host.bare pathView "\x7d\x7b\x7bpath()\x7d\x7d" () = (.ok "\x7d\x7b\x7benv(APP)\x7d\x7d$1", ()) :=
  render_source Host.bare pathView (show (pathTemplate ['}'] (by decide)).Separated from
    fun _ hp => by rw [List.mem_singleton.mp hp]; decide) ()

/-- Behind a literal brace the expression is taken to be `{path()`, which is none. -/
theorem render_brace :
    (pathTemplate ['{'] (by decide)).source = "\x7b\x7b\x7bpath()\x7d\x7d" ∧
    (pathTemplate ['{'] (by decide)).value Host.bare pathView () = (.ok "\x7b\x7b\x7benv(APP)\x7d\x7d$1", ()) ∧
    render Host.bare pathView (pathTemplate ['{'] (by decide)).source () =
      (.error (.illegalArgument "'\x7bpath()' is not a valid expression."), ()) := by
  refine ⟨rfl, rfl, rfl⟩

end Powerful
