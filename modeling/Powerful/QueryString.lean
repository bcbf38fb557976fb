import Mathlib

/-! # Query strings

A query string holds names and values: pieces between `&`, each split at its first `=`, with
`+` for a blank and `%XX` for the bytes of any other character (`formPairs`).  A URI may carry
a text as its query if `queryLegal` says so.

Pairs that are written into a query string as they are come out again if they are `Plain`
(`formPairs_join`).  The converse is `plain_of_read`: pairs that all come out again are plain,
since an escape makes a text shorter, and without one no separator comes out of a piece. -/

namespace QueryString

/-! ### Legal characters -/

def hexValue (c : Char) : Option ℕ :=
  if '0' ≤ c ∧ c ≤ '9' then some (c.toNat - '0'.toNat)
  else if 'a' ≤ c ∧ c ≤ 'f' then some (c.toNat - 'a'.toNat + 10)
  else if 'A' ≤ c ∧ c ≤ 'F' then some (c.toNat - 'A'.toNat + 10)
  else none

/-- `Character.isSpaceChar` outside ASCII. -/
def isSpaceChar (c : Char) : Bool :=
  c.toNat ∈ [0xA0, 0x1680, 0x180E, 0x2028, 0x2029, 0x202F, 0x205F, 0x3000] ||
    (0x2000 ≤ c.toNat && c.toNat ≤ 0x200A)

/-- The characters that stand for themselves: reserved and unreserved ones, and visible ones
outside ASCII. -/
def uric (c : Char) : Bool :=
  c.isAlphanum || c ∈ ";/?:@&=+$,[]-_.!~*'()".toList || (0xA0 ≤ c.toNat && !isSpaceChar c)

/-- Legal characters, escapes and the separator of the fragment. -/
def legalText : List Char → Bool
  | [] => true
  | c :: r =>
      if c = '%' then
        match r with
        | a :: b :: r => (hexValue a).isSome && (hexValue b).isSome && legalText r
        | _ => false
      else (uric c || c = '#') && legalText r

/-- What may stand behind the `?` of a URI: a query and a fragment. -/
def queryLegal (q : List Char) : Bool := legalText q && q.count '#' ≤ 1

/-- A character that is legal and belongs to no escape. -/
def Separator (c : Char) : Prop := uric c = true ∧ hexValue c = none ∧ c ≠ '%'

theorem separator_and : Separator '&' := ⟨by rfl, by rfl, by decide⟩

theorem separator_eq : Separator '=' := ⟨by rfl, by rfl, by decide⟩

theorem legalText_cons {c : Char} (hc : c ≠ '%') (r : List Char) :
    legalText (c :: r) = ((uric c || c = '#') && legalText r) := by
  conv_lhs => unfold legalText
  rw [if_neg hc]

theorem legalText_escape (a b : Char) (r : List Char) :
    legalText ('%' :: a :: b :: r) = ((hexValue a).isSome && (hexValue b).isSome && legalText r) := by
  rw [legalText, if_pos rfl]

/-- Texts on both sides of a separator are legal on their own. -/
theorem legalText_append_cons {c : Char} (hc : Separator c) (a b : List Char) :
    legalText (a ++ c :: b) = (legalText a && legalText b) := by
  obtain ⟨huric, hhex, hpercent⟩ := hc
  induction a using legalText.induct with
  | case1 =>
      rw [List.nil_append, legalText_cons hpercent, huric]
      simp [legalText]
  | case2 x y r ih =>
      simp only [List.cons_append]
      rw [legalText_escape, legalText_escape, ih]
      simp only [Bool.and_assoc]
  | case3 r hr =>
      match r with
      | [] => cases b <;> simp [legalText, hhex]
      | [x] => simp [legalText, hhex]
      | x :: y :: r => exact absurd rfl (hr x y r)
  | case4 x r hx ih =>
      rw [List.cons_append, legalText_cons hx, ih, legalText_cons hx, Bool.and_assoc]

theorem legalText_intercalate : ∀ (parts : List (List Char)),
    legalText (List.intercalate ['&'] parts) = parts.all legalText
  | [] => rfl
  | [p] => by simp
  | p :: p' :: parts => by
      rw [List.intercalate_cons_cons, List.append_assoc, List.singleton_append,
        legalText_append_cons separator_and, legalText_intercalate (p' :: parts), ← List.all_cons]

theorem legalText_plain : ∀ {t : List Char}, '%' ∉ t → '#' ∉ t → legalText t = t.all uric
  | [], _, _ => rfl
  | c :: t, hpercent, hhash => by
      rw [List.mem_cons, not_or] at hpercent hhash
      rw [legalText_cons (Ne.symm hpercent.1), legalText_plain hpercent.2 hhash.2, List.all_cons]
      simp [Ne.symm hhash.1]

theorem count_hash_intercalate : ∀ (parts : List (List Char)),
    (List.intercalate ['&'] parts).count '#' = (parts.map (List.count '#')).sum
  | [] => rfl
  | [p] => by simp
  | p :: p' :: parts => by
      rw [List.intercalate_cons_cons, List.append_assoc, List.count_append, List.singleton_append,
        List.count_cons_of_ne (by decide), count_hash_intercalate (p' :: parts), ← List.sum_cons,
        ← List.map_cons]

/-! ### Reading a query string -/

/-- The charset that the bytes of escapes are read in: no byte makes two characters. -/
structure Charset where
  text : List UInt8 → List Char
  length_text_le : ∀ bytes, (text bytes).length ≤ bytes.length

variable (charset : Charset)

def plusToSpace (c : Char) : Char := if c = '+' then ' ' else c

/-- Decode a text behind the bytes of the escapes that precede it. -/
def decodeFrom : List UInt8 → List Char → Option (List Char)
  | bytes, [] => some (charset.text bytes)
  | bytes, c :: r =>
      if c = '%' then
        match r with
        | a :: b :: r => match hexValue a, hexValue b with
          | some x, some y => decodeFrom (bytes ++ [UInt8.ofNat (16 * x + y)]) r
          | _, _ => none
        | _ => none
      else (decodeFrom [] r).map fun t => charset.text bytes ++ plusToSpace c :: t

def decode (t : List Char) : Option (List Char) := decodeFrom charset [] t

/-- The name and value of a piece; one that cannot be decoded is left out. -/
def readPiece (piece : List Char) : Option (List Char × List Char) :=
  if piece = [] then none
  else do
    let name ← decode charset (piece.takeWhile (· ≠ '='))
    let value ← decode charset (piece.dropWhile (· ≠ '=')).tail
    some (name, value)

/-- The names and values of a query string. -/
def formPairs (q : List Char) : List (List Char × List Char) :=
  (q.splitOn '&').filterMap (readPiece charset)

theorem decodeFrom_plain : ∀ (bytes : List UInt8) {t : List Char}, '%' ∉ t →
    decodeFrom charset bytes t = some (charset.text bytes ++ t.map plusToSpace)
  | bytes, [], _ => by simp [decodeFrom]
  | bytes, c :: t, h => by
      have hempty : charset.text [] = [] := List.length_eq_zero_iff.mp
        (Nat.le_zero.mp (charset.length_text_le []))
      rw [List.mem_cons, not_or] at h
      unfold decodeFrom
      rw [if_neg (Ne.symm h.1), decodeFrom_plain [] h.2, hempty]
      rfl

theorem decode_plain {t : List Char} (h : '%' ∉ t) : decode charset t = some (t.map plusToSpace) := by
  have hempty : charset.text [] = [] := List.length_eq_zero_iff.mp
    (Nat.le_zero.mp (charset.length_text_le []))
  unfold decode
  rw [decodeFrom_plain charset [] h, hempty, List.nil_append]

theorem decodeFrom_cons {c : Char} (hc : c ≠ '%') (bytes : List UInt8) (r : List Char) :
    decodeFrom charset bytes (c :: r) =
      (decodeFrom charset [] r).map fun t => charset.text bytes ++ plusToSpace c :: t := by
  conv_lhs => unfold decodeFrom
  rw [if_neg hc]

theorem hexValue_ne_percent {c : Char} {n : ℕ} (h : hexValue c = some n) : c ≠ '%' := by
  rintro rfl
  exact absurd h (by simp [show hexValue '%' = none by decide])

/-- Each escape makes the text shorter. -/
theorem decodeFrom_length {bytes : List UInt8} {t u : List Char}
    (h : decodeFrom charset bytes t = some u) : u.length + t.count '%' ≤ bytes.length + t.length := by
  induction bytes, t using decodeFrom.induct generalizing u with
  | case1 bytes =>
      obtain rfl := Option.some.inj h
      have hle := charset.length_text_le bytes
      simp only [List.count_nil, List.length_nil]
      omega
  | case2 bytes a b r x y hy hx ih =>
      rw [decodeFrom, if_pos rfl] at h
      simp only [hx, hy] at h
      have hle := ih h
      rw [List.count_cons_self, List.count_cons_of_ne (hexValue_ne_percent hx),
        List.count_cons_of_ne (hexValue_ne_percent hy)]
      simp only [List.length_append, List.length_cons, List.length_nil] at hle ⊢
      omega
  | case3 bytes a b r hhex =>
      rw [decodeFrom, if_pos rfl] at h
      simp only at h
      cases h
  | case4 bytes r hr =>
      match r with
      | [] | [_] => simp [decodeFrom] at h
      | a :: b :: r => exact absurd rfl (hr a b r)
  | case5 bytes c r hc ih =>
      rw [decodeFrom_cons charset hc] at h
      obtain ⟨t, ht, rfl⟩ := Option.map_eq_some_iff.mp h
      have hle := ih ht
      have htext := charset.length_text_le bytes
      rw [List.count_cons_of_ne hc]
      simp only [List.length_append, List.length_cons, List.length_nil] at hle ⊢
      omega

theorem decode_length {t u : List Char} (h : decode charset t = some u) :
    u.length + t.count '%' ≤ t.length := by
  have hle := decodeFrom_length charset h
  simpa using hle

/-! ### Pieces -/

theorem readPiece_eq_some {x : List Char} {p : List Char × List Char}
    (h : readPiece charset x = some p) :
    decode charset (x.takeWhile (· ≠ '=')) = some p.1 ∧
      decode charset (x.dropWhile (· ≠ '=')).tail = some p.2 := by
  unfold readPiece at h
  split at h
  · cases h
  · obtain ⟨name, hname, h⟩ := Option.bind_eq_some_iff.mp h
    obtain ⟨value, hvalue, h⟩ := Option.bind_eq_some_iff.mp h
    obtain rfl := Option.some.inj h
    exact ⟨hname, hvalue⟩

/-- A piece is its name, and behind the first separator its value. -/
theorem piece_cases (x : List Char) :
    ('=' ∉ x ∧ x.takeWhile (· ≠ '=') = x ∧ (x.dropWhile (· ≠ '=')).tail = []) ∨
      ∃ name value, x = name ++ '=' :: value ∧ '=' ∉ name ∧ x.takeWhile (· ≠ '=') = name ∧
        (x.dropWhile (· ≠ '=')).tail = value := by
  induction x with
  | nil => exact Or.inl ⟨List.not_mem_nil, rfl, rfl⟩
  | cons c x ih =>
      by_cases hc : c = '='
      · subst hc
        exact Or.inr ⟨[], x, rfl, List.not_mem_nil, by simp, by simp⟩
      · rcases ih with ⟨hx, htake, hdrop⟩ | ⟨name, value, hx, hname, htake, hdrop⟩
        · refine Or.inl ⟨?_, ?_, ?_⟩
          · rw [List.mem_cons, not_or]
            exact ⟨Ne.symm hc, hx⟩
          · rw [List.takeWhile_cons_of_pos (by simpa using hc), htake]
          · rw [List.dropWhile_cons_of_pos (by simpa using hc), hdrop]
        · refine Or.inr ⟨c :: name, value, ?_, ?_, ?_, ?_⟩
          · rw [hx, List.cons_append]
          · rw [List.mem_cons, not_or]
            exact ⟨Ne.symm hc, hname⟩
          · rw [List.takeWhile_cons_of_pos (by simpa using hc), htake]
          · rw [List.dropWhile_cons_of_pos (by simpa using hc), hdrop]

/-- The length of a name and its value. -/
def size (p : List Char × List Char) : ℕ := p.1.length + p.2.length

theorem readPiece_size {x : List Char} {p : List Char × List Char}
    (h : readPiece charset x = some p) : size p + x.count '%' ≤ x.length := by
  obtain ⟨hname, hvalue⟩ := readPiece_eq_some charset h
  have hn := decode_length charset hname
  have hv := decode_length charset hvalue
  unfold size
  rcases piece_cases x with ⟨-, htake, hdrop⟩ | ⟨name, value, hx, -, htake, hdrop⟩
  · rw [htake] at hn
    rw [hdrop] at hv
    simp only [List.length_nil, List.count_nil] at hv
    omega
  · rw [htake] at hn
    rw [hdrop] at hv
    rw [hx, List.count_append, List.count_cons_of_ne (by decide)]
    simp only [List.length_append, List.length_cons]
    omega

theorem readPiece_size_lt {x : List Char} {p : List Char × List Char} (hx : '=' ∈ x)
    (h : readPiece charset x = some p) : size p + x.count '%' < x.length := by
  obtain ⟨hname, hvalue⟩ := readPiece_eq_some charset h
  have hn := decode_length charset hname
  have hv := decode_length charset hvalue
  unfold size
  rcases piece_cases x with ⟨hno, -⟩ | ⟨name, value, hx, -, htake, hdrop⟩
  · exact absurd hx hno
  · rw [htake] at hn
    rw [hdrop] at hv
    rw [hx, List.count_append, List.count_cons_of_ne (by decide)]
    simp only [List.length_append, List.length_cons]
    omega

/-- Without escapes a piece is read as it stands, less its `+`. -/
theorem readPiece_plain {x : List Char} {p : List Char × List Char} (hx : '%' ∉ x)
    (h : readPiece charset x = some p) :
    (∀ c ∈ p.1, c ≠ '=' ∧ c ≠ '+' ∧ (c = ' ' ∨ c ∈ x)) ∧
      ∀ c ∈ p.2, c ≠ '+' ∧ (c = ' ' ∨ c ∈ x) := by
  obtain ⟨hname, hvalue⟩ := readPiece_eq_some charset h
  have htake : x.takeWhile (· ≠ '=') ⊆ x := (List.takeWhile_sublist _).subset
  have hdrop : (x.dropWhile (· ≠ '=')).tail ⊆ x := fun c hc =>
    (List.dropWhile_sublist _).subset (List.mem_of_mem_tail hc)
  rw [decode_plain charset fun h => hx (htake h)] at hname
  rw [decode_plain charset fun h => hx (hdrop h)] at hvalue
  rw [← Option.some.inj hname, ← Option.some.inj hvalue]
  constructor
  · intro c hc
    obtain ⟨d, hd, rfl⟩ := List.mem_map.mp hc
    have hne : d ≠ '=' := by simpa using List.mem_takeWhile_imp hd
    unfold plusToSpace
    split
    · exact ⟨by decide, by decide, Or.inl rfl⟩
    · rename_i hplus
      exact ⟨hne, hplus, Or.inr (htake hd)⟩
  · intro c hc
    obtain ⟨d, hd, rfl⟩ := List.mem_map.mp hc
    unfold plusToSpace
    split
    · exact ⟨by decide, Or.inl rfl⟩
    · rename_i hplus
      exact ⟨hplus, Or.inr (hdrop hd)⟩

/-! ### Written pairs -/

/-- A pair as it is written into a query string. -/
def pairText (p : List Char × List Char) : List Char := p.1 ++ '=' :: p.2

/-- No character of the pair means anything in a query string. -/
structure Plain (p : List Char × List Char) : Prop where
  name : ∀ c ∈ p.1, c ∉ ['&', '=', '+', '%', '#']
  value : ∀ c ∈ p.2, c ∉ ['&', '+', '%', '#']

/-- A query string up to the fragment. -/
def joined (parts : List (List Char)) : List Char :=
  (List.intercalate ['&'] parts).takeWhile (· ≠ '#')

theorem mem_pairText {p : List Char × List Char} {c : Char} :
    c ∈ pairText p ↔ c ∈ p.1 ∨ c = '=' ∨ c ∈ p.2 := by
  unfold pairText
  rw [List.mem_append, List.mem_cons]

theorem Plain.notMem {p : List Char × List Char} (h : Plain p) :
    '&' ∉ pairText p ∧ '%' ∉ pairText p ∧ '#' ∉ pairText p := by
  have hall : ∀ c ∈ ['&', '%', '#'], c ∉ pairText p := by
    intro c hc hmem
    rcases mem_pairText.mp hmem with hname | rfl | hvalue
    · exact h.name c hname (by fin_cases hc <;> decide)
    · exact absurd hc (by decide)
    · exact h.value c hvalue (by fin_cases hc <;> decide)
  exact ⟨hall _ (by decide), hall _ (by decide), hall _ (by decide)⟩

theorem map_plusToSpace {t : List Char} (h : '+' ∉ t) : t.map plusToSpace = t := by
  rw [List.map_congr_left, List.map_id]
  intro c hc
  unfold plusToSpace
  rw [if_neg]
  · rfl
  · rintro rfl
    exact h hc

theorem readPiece_pairText {p : List Char × List Char} (h : Plain p) :
    readPiece charset (pairText p) = some p := by
  have hname : (pairText p).takeWhile (· ≠ '=') = p.1 := by
    unfold pairText
    rw [List.takeWhile_append_of_pos, List.takeWhile_cons_of_neg (by simp), List.append_nil]
    intro c hc
    simpa using fun heq : c = '=' => h.name c hc (by rw [heq]; decide)
  have hvalue : ((pairText p).dropWhile (· ≠ '=')).tail = p.2 := by
    unfold pairText
    rw [List.dropWhile_append_of_pos, List.dropWhile_cons_of_neg (by simp), List.tail_cons]
    intro c hc
    simpa using fun heq : c = '=' => h.name c hc (by rw [heq]; decide)
  have hnamed : decode charset p.1 = some p.1 := by
    rw [decode_plain charset fun hc => h.name _ hc (by decide),
      map_plusToSpace fun hc => h.name _ hc (by decide)]
  have hvalued : decode charset p.2 = some p.2 := by
    rw [decode_plain charset fun hc => h.value _ hc (by decide),
      map_plusToSpace fun hc => h.value _ hc (by decide)]
  unfold readPiece
  rw [if_neg (by unfold pairText; simp), hname, hvalue, hnamed, hvalued]
  rfl

theorem takeWhile_ne_of_notMem {a : Char} {t : List Char} (h : a ∉ t) :
    t.takeWhile (· ≠ a) = t := by
  rw [List.takeWhile_eq_self_iff]
  intro c hc
  simpa using fun heq : c = a => h (heq ▸ hc)

theorem notMem_intercalate {c : Char} (hc : c ≠ '&') : ∀ {parts : List (List Char)},
    (∀ t ∈ parts, c ∉ t) → c ∉ List.intercalate ['&'] parts
  | [], _ => List.not_mem_nil
  | [t], h => by
      rw [List.intercalate_singleton]
      exact h t List.mem_cons_self
  | t :: t' :: parts, h => by
      rw [List.intercalate_cons_cons, List.append_assoc, List.mem_append, List.singleton_append,
        List.mem_cons, not_or, not_or]
      exact ⟨h t List.mem_cons_self, hc,
        notMem_intercalate hc fun u hu => h u (List.mem_cons_of_mem t hu)⟩

/-- **Round trip**: plain pairs are read as they were written. -/
theorem formPairs_join {ps : List (List Char × List Char)} {extra : List (List Char)}
    (hps : ∀ p ∈ ps, Plain p) (hextra : ∀ t ∈ extra, '&' ∉ t ∧ '#' ∉ t) :
    formPairs charset (joined (ps.map pairText ++ extra)) = ps ++ extra.filterMap (readPiece charset) := by
  have hparts : ∀ t ∈ ps.map pairText ++ extra, '&' ∉ t ∧ '#' ∉ t := by
    intro t ht
    rcases List.mem_append.mp ht with ht | ht
    · obtain ⟨p, hp, rfl⟩ := List.mem_map.mp ht
      exact ⟨(hps p hp).notMem.1, (hps p hp).notMem.2.2⟩
    · exact hextra t ht
  have hread : (ps.map pairText).filterMap (readPiece charset) = ps := by
    rw [List.filterMap_map]
    exact (List.filterMap_congr fun p hp => readPiece_pairText charset (hps p hp)).trans
      List.filterMap_some
  unfold formPairs joined
  rw [takeWhile_ne_of_notMem (notMem_intercalate (by decide) fun t ht => (hparts t ht).2)]
  by_cases hempty : ps.map pairText ++ extra = []
  · obtain ⟨hnone, rfl⟩ := List.append_eq_nil_iff.mp hempty
    obtain rfl := List.map_eq_nil_iff.mp hnone
    rfl
  · rw [List.splitOn_intercalate '&' (fun t ht => (hparts t ht).1) hempty, List.filterMap_append, hread]

/-! ### Legal written pairs -/

theorem legalText_pairText (p : List Char × List Char) :
    legalText (pairText p) = (legalText p.1 && legalText p.2) := legalText_append_cons separator_eq _ _

theorem count_hash_pairText (p : List Char × List Char) :
    (pairText p).count '#' = p.1.count '#' + p.2.count '#' := by
  unfold pairText
  rw [List.count_append, List.count_cons_of_ne (by decide)]

theorem queryLegal_intercalate_iff (parts : List (List Char)) :
    queryLegal (List.intercalate ['&'] parts) = true ↔
      (∀ t ∈ parts, legalText t = true) ∧ (parts.map (List.count '#')).sum ≤ 1 := by
  unfold queryLegal
  rw [legalText_intercalate, count_hash_intercalate, Bool.and_eq_true, List.all_eq_true,
    decide_eq_true_eq]

/-- A pair without its value. -/
def blank (p : List Char × List Char) : List Char := pairText (p.1, [])

/-- Pairs that are legal are legal without their values. -/
theorem queryLegal_blank {ps : List (List Char × List Char)} {extra : List (List Char)}
    (h : queryLegal (List.intercalate ['&'] (ps.map pairText ++ extra)) = true) :
    queryLegal (List.intercalate ['&'] (ps.map blank)) = true := by
  rw [queryLegal_intercalate_iff] at h ⊢
  obtain ⟨hlegal, hcount⟩ := h
  constructor
  · intro t ht
    obtain ⟨p, hp, rfl⟩ := List.mem_map.mp ht
    have hpair := hlegal _ (List.mem_append_left extra (List.mem_map_of_mem hp))
    rw [legalText_pairText, Bool.and_eq_true] at hpair
    unfold blank
    rw [legalText_pairText, hpair.1]
    rfl
  · rw [List.map_append, List.sum_append, List.map_map] at hcount
    rw [List.map_map]
    have hle : (ps.map (List.count '#' ∘ blank)).sum ≤ (ps.map (List.count '#' ∘ pairText)).sum := by
      apply List.sum_le_sum
      intro p _
      simp only [Function.comp_apply, blank, count_hash_pairText, List.count_nil]
      omega
    omega

/-- Plain pairs that are legal without their values are legal if and only if their values are. -/
theorem queryLegal_plain_iff {ps : List (List Char × List Char)} {extra : List (List Char)}
    (hps : ∀ p ∈ ps, Plain p) (hextra : ∀ t ∈ extra, legalText t = true ∧ '#' ∉ t)
    (hblank : queryLegal (List.intercalate ['&'] (ps.map blank)) = true) :
    queryLegal (List.intercalate ['&'] (ps.map pairText ++ extra)) = true ↔
      ∀ p ∈ ps, ∀ c ∈ p.2, uric c = true := by
  have hvalue : ∀ p ∈ ps, legalText p.2 = true ↔ ∀ c ∈ p.2, uric c = true := by
    intro p hp
    rw [legalText_plain (fun h => (hps p hp).value _ h (by decide))
      fun h => (hps p hp).value _ h (by decide), List.all_eq_true]
  rw [queryLegal_intercalate_iff] at hblank ⊢
  constructor
  · rintro ⟨hlegal, -⟩ p hp
    have hpair := hlegal _ (List.mem_append_left extra (List.mem_map_of_mem hp))
    rw [legalText_pairText, Bool.and_eq_true] at hpair
    exact (hvalue p hp).mp hpair.2
  · intro h
    constructor
    · intro t ht
      rcases List.mem_append.mp ht with ht | ht
      · obtain ⟨p, hp, rfl⟩ := List.mem_map.mp ht
        have hname := hblank.1 _ (List.mem_map_of_mem hp)
        unfold blank at hname
        rw [legalText_pairText, Bool.and_eq_true] at hname
        rw [legalText_pairText, hname.1, (hvalue p hp).mpr (h p hp)]
        rfl
      · exact (hextra t ht).1
    · rw [List.sum_eq_zero]
      · exact Nat.zero_le 1
      · intro n hn
        obtain ⟨t, ht, rfl⟩ := List.mem_map.mp hn
        rw [List.count_eq_zero]
        rcases List.mem_append.mp ht with ht | ht
        · obtain ⟨p, hp, rfl⟩ := List.mem_map.mp ht
          exact (hps p hp).notMem.2.2
        · exact (hextra t ht).2

/-! ### The converse -/

theorem infix_intercalate {a : Char} : ∀ {parts : List (List Char)} {x : List Char}, x ∈ parts →
    x <:+: List.intercalate [a] parts
  | [t], x, hx => by
      rw [List.intercalate_singleton, List.mem_singleton.mp hx]
  | t :: t' :: parts, x, hx => by
      rw [List.intercalate_cons_cons, List.append_assoc]
      rcases List.mem_cons.mp hx with rfl | hx
      · exact (List.prefix_append _ _).isInfix
      · exact (infix_intercalate hx).trans
          ((List.suffix_append _ _).trans (List.suffix_append _ _)).isInfix

theorem notMem_of_mem_splitOn {a : Char} {t x : List Char} (hx : x ∈ t.splitOn a) : a ∉ x := by
  induction t generalizing x with
  | nil =>
      rw [List.splitOn_nil, List.mem_singleton] at hx
      rw [hx]
      exact List.not_mem_nil
  | cons c t ih =>
      rw [List.splitOn_cons_eq_if_modifyHead] at hx
      split at hx
      · rcases List.mem_cons.mp hx with rfl | hx
        · exact List.not_mem_nil
        · exact ih hx
      · rename_i hc
        obtain ⟨r, rs, hr⟩ := List.exists_cons_of_ne_nil (List.splitOn_ne_nil a t)
        rw [hr, List.modifyHead_cons] at hx
        rcases List.mem_cons.mp hx with rfl | hx
        · rw [List.mem_cons, not_or]
          exact ⟨fun heq => hc (by simp [heq]), ih (hr ▸ List.mem_cons_self)⟩
        · exact ih (hr ▸ List.mem_cons_of_mem r hx)

theorem infix_of_mem_splitOn {a : Char} {t x : List Char} (hx : x ∈ t.splitOn a) : x <:+: t := by
  have hinfix : x <:+: List.intercalate [a] (t.splitOn a) := infix_intercalate hx
  rwa [List.intercalate_splitOn] at hinfix

/-- A piece of a query string is one of its parts. -/
theorem mem_joined_splitOn : ∀ {parts : List (List Char)} {x : List Char}, x ≠ [] →
    x ∈ (joined parts).splitOn '&' → ∃ t ∈ parts, x ∈ (t.takeWhile (· ≠ '#')).splitOn '&'
  | [], x, hne, hx => by
      rw [show joined [] = [] from rfl, List.splitOn_nil, List.mem_singleton] at hx
      exact absurd hx hne
  | [t], x, hne, hx => ⟨t, List.mem_cons_self, by simpa [joined] using hx⟩
  | t :: t' :: parts, x, hne, hx => by
      have hjoin : List.intercalate ['&'] (t :: t' :: parts) =
          t ++ '&' :: List.intercalate ['&'] (t' :: parts) := by
        rw [List.intercalate_cons_cons, List.append_assoc, List.singleton_append]
      unfold joined at hx
      rw [hjoin] at hx
      by_cases hhash : '#' ∈ t
      · rw [List.takeWhile_append, if_neg] at hx
        · exact ⟨t, List.mem_cons_self, hx⟩
        · intro hlength
          have hself := (List.takeWhile_prefix _).eq_of_length hlength
          have hne' := List.takeWhile_eq_self_iff.mp hself '#' hhash
          exact absurd hne' (by decide)
      · rw [List.takeWhile_append_of_pos (fun c hc => by simpa using fun heq : c = '#' => hhash (heq ▸ hc)),
          List.takeWhile_cons_of_pos (by decide), List.splitOn_append_cons_self, List.mem_append] at hx
        rcases hx with hx | hx
        · exact ⟨t, List.mem_cons_self, by rwa [takeWhile_ne_of_notMem hhash]⟩
        · obtain ⟨u, hu, hxu⟩ := mem_joined_splitOn hne hx
          exact ⟨u, List.mem_cons_of_mem t hu, hxu⟩

/-- A pair that is read from a written pair is no longer than it, and shorter by its escapes. -/
theorem size_of_read {l p : List Char × List Char} {x : List Char} (hx : List.Sublist x (pairText l))
    (h : readPiece charset x = some p) : size p + x.count '%' ≤ size l := by
  have hlength : (pairText l).length = size l + 1 := by
    unfold pairText size
    simp only [List.length_append, List.length_cons]
    omega
  by_cases heq : '=' ∈ x
  · have hlt := readPiece_size_lt charset heq h
    have hle := hx.length_le
    omega
  · have hle := readPiece_size charset h
    have hlt : x.length < (pairText l).length := by
      refine lt_of_le_of_ne hx.length_le fun hlen => heq ?_
      rw [hx.eq_of_length hlen]
      exact mem_pairText.mpr (Or.inr (Or.inl rfl))
    omega

/-- Pairs that are all read again from what one of them wrote contain no escape. -/
theorem no_escape {ps : List (List Char × List Char)}
    (h : ∀ p ∈ ps, ∃ l ∈ ps, ∃ x, List.Sublist x (pairText l) ∧ readPiece charset x = some p) :
    ∀ p ∈ ps, '%' ∉ pairText p := by
  -- a pair with an escape would be read from a longer one, and so on
  have hgrow : ∀ n, (∃ p ∈ ps, '%' ∈ pairText p) → ∃ p ∈ ps, '%' ∈ pairText p ∧ n ≤ size p := by
    intro n
    induction n with
    | zero =>
        rintro ⟨p, hp, hescape⟩
        exact ⟨p, hp, hescape, Nat.zero_le _⟩
    | succ n ih =>
        intro hex
        obtain ⟨p, hp, hescape, hn⟩ := ih hex
        obtain ⟨l, hl, x, hx, hread⟩ := h p hp
        have hxescape : '%' ∈ x := by
          by_contra hno
          obtain ⟨hname, hvalue⟩ := readPiece_plain charset hno hread
          rcases mem_pairText.mp hescape with hmem | heq | hmem
          · rcases (hname _ hmem).2.2 with heq | hmem
            · exact absurd heq (by decide)
            · exact hno hmem
          · exact absurd heq (by decide)
          · rcases (hvalue _ hmem).2 with heq | hmem
            · exact absurd heq (by decide)
            · exact hno hmem
        have hcount := List.count_pos_iff.mpr hxescape
        have hsize := size_of_read charset hx hread
        exact ⟨l, hl, hx.subset hxescape, by omega⟩
  have hbound : ∀ p ∈ ps, size p ≤ (ps.map size).sum := fun p hp =>
    List.single_le_sum (fun _ _ => Nat.zero_le _) _ (List.mem_map_of_mem hp)
  intro p hp hescape
  obtain ⟨q, hq, -, hsize⟩ := hgrow ((ps.map size).sum + 1) ⟨p, hp, hescape⟩
  have hle := hbound q hq
  omega

/-- **Converse**: written pairs that are all read again are plain, if no other part of the
query string is read as one of them. -/
theorem plain_of_read {ps : List (List Char × List Char)} {extra : List (List Char)}
    (hread : ∀ p ∈ ps, p ∈ formPairs charset (joined (ps.map pairText ++ extra)))
    (hextra : ∀ t ∈ extra, ∀ x ∈ (t.takeWhile (· ≠ '#')).splitOn '&', ∀ p ∈ ps,
      readPiece charset x ≠ some p) :
    ∀ p ∈ ps, Plain p := by
  have hfrom : ∀ p ∈ ps, ∃ l ∈ ps, ∃ x, List.Sublist x (pairText l) ∧ '&' ∉ x ∧ '#' ∉ x ∧
      readPiece charset x = some p := by
    intro p hp
    obtain ⟨x, hx, hpiece⟩ := List.mem_filterMap.mp (hread p hp)
    have hne : x ≠ [] := by
      rintro rfl
      cases hpiece
    obtain ⟨t, ht, hxt⟩ := mem_joined_splitOn hne hx
    rcases List.mem_append.mp ht with ht | ht
    · obtain ⟨l, hl, rfl⟩ := List.mem_map.mp ht
      have hsublist := (infix_of_mem_splitOn hxt).sublist
      refine ⟨l, hl, x, hsublist.trans (List.takeWhile_sublist _), notMem_of_mem_splitOn hxt, ?_, hpiece⟩
      intro hhash
      exact absurd (List.mem_takeWhile_imp (hsublist.subset hhash)) (by decide)
    · exact absurd hpiece (hextra t ht x hxt p hp)
  have hescape := no_escape charset fun p hp => by
    obtain ⟨l, hl, x, hx, -, -, hpiece⟩ := hfrom p hp
    exact ⟨l, hl, x, hx, hpiece⟩
  intro p hp
  obtain ⟨l, hl, x, hx, hamp, hhash, hpiece⟩ := hfrom p hp
  have hpercent : '%' ∉ x := fun h => hescape l hl (hx.subset h)
  obtain ⟨hname, hvalue⟩ := readPiece_plain charset hpercent hpiece
  constructor
  · intro c hc hmem
    obtain ⟨heq, hplus, hspace | hx⟩ := hname c hc
    · subst hspace
      exact absurd hmem (by decide)
    · simp only [List.mem_cons, List.not_mem_nil, or_false] at hmem
      rcases hmem with rfl | rfl | rfl | rfl | rfl
      · exact hamp hx
      · exact heq rfl
      · exact hplus rfl
      · exact hpercent hx
      · exact hhash hx
  · intro c hc hmem
    obtain ⟨hplus, hspace | hx⟩ := hvalue c hc
    · subst hspace
      exact absurd hmem (by decide)
    · simp only [List.mem_cons, List.not_mem_nil, or_false] at hmem
      rcases hmem with rfl | rfl | rfl | rfl
      · exact hamp hx
      · exact hplus rfl
      · exact hpercent hx
      · exact hhash hx

end QueryString
