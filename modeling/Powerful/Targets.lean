import Mathlib
import Powerful.RequestCases

/-! # Rewriting of targets

`replaceTargets` rewrites a call by one entry of the target mapping after the other, in the order
in which the mapping enumerates them.  Names and values are handed to `String.replaceAll`, which
reads them as a regular expression and as a replacement text.

`substituted` is one simultaneous substitution of the first segment of a call.  The code substitutes,
in every order and behind every entry, if and only if the entries do to one call what `Exact` says
(`substitutes_iff`).  For a mapping whose names and values stand for themselves this is a condition on
the texts, `Apart`: no other name applies to a call, nor to a call that has been substituted
(`rewritten_iff`). -/

namespace Powerful

namespace StaticResources

/-! ### The substitution -/

/-- The text of a call before its first slash. -/
def firstSegment (call : String) : String := String.ofList (call.toList.takeWhile (· ≠ '/'))

/-- The text from the first slash on. -/
def behindSegment (call : String) : String := String.ofList (call.toList.dropWhile (· ≠ '/'))

/-- The call with its first segment replaced, if that is a name of the mapping. -/
def substituted (mapping : List (String × String)) (call : String) : String :=
  match mapping.lookup (firstSegment call) with
  | some value => value ++ behindSegment call
  | none => call

/-- One round of the loop in `replaceTargets`. -/
def replaceTarget (lib : JavaLib) (e : String × String) (s : String) : Except Exc String :=
  if '/' ∈ s.toList then lib.replaceAll ("^" ++ e.1 ++ "/") (e.2 ++ "/") s
  else lib.replaceAll ("^" ++ e.1 ++ "$") e.2 s

theorem replaceTargets_cons (lib : JavaLib) {e : String × String} (he : e.2 ≠ "")
    (mapping : List (String × String)) (s : String) :
    replaceTargets lib true (e :: mapping) (some s) =
      replaceTarget lib e s >>= fun s => replaceTargets lib true mapping (some s) := by
  rw [replaceTargets, if_neg he]
  unfold replaceTarget
  by_cases hslash : '/' ∈ s.toList
  · simp only [if_pos hslash]
    rfl
  · simp only [if_neg hslash]
    rfl

/-- What the entries must do to one call: those of other names leave it alone, that of its first
segment substitutes, and then the others leave the result alone. -/
structure Exact (lib : JavaLib) (mapping : List (String × String)) (call : String) : Prop where
  others : ∀ e ∈ mapping, e.1 ≠ firstSegment call → replaceTarget lib e call = .ok call
  own : ∀ e ∈ mapping, e.1 = firstSegment call →
    replaceTarget lib e call = .ok (e.2 ++ behindSegment call)
  kept : ∀ e ∈ mapping, e.1 = firstSegment call → ∀ f ∈ mapping, f.1 ≠ e.1 →
    replaceTarget lib f (e.2 ++ behindSegment call) = .ok (e.2 ++ behindSegment call)

section one
variable {lib : JavaLib} {mapping : List (String × String)} {call : String}

/-- Entries that leave a text alone leave it alone one after the other. -/
theorem replaceTargets_kept {s : String} : ∀ {order : List (String × String)},
    (∀ e ∈ order, e.2 ≠ "" ∧ replaceTarget lib e s = .ok s) →
      replaceTargets lib true order (some s) = .ok (some s)
  | [], _ => rfl
  | e :: order, h => by
      obtain ⟨hvalue, hstep⟩ := h e List.mem_cons_self
      rw [replaceTargets_cons lib hvalue, hstep]
      exact replaceTargets_kept fun f hf => h f (List.mem_cons_of_mem e hf)

/-- Entries of the mapping, in any order. -/
theorem replaceTargets_exact (hexact : Exact lib mapping call) : ∀ {order : List (String × String)},
    (∀ e ∈ order, e ∈ mapping ∧ e.2 ≠ "") → (order.map Prod.fst).Nodup →
      replaceTargets lib true order (some call) = .ok (some (substituted order call))
  | [], _, _ => rfl
  | e :: order, horder, hnodup => by
      obtain ⟨hmem, hvalue⟩ := horder e List.mem_cons_self
      rw [List.map_cons, List.nodup_cons] at hnodup
      have hrest := fun f hf => horder f (List.mem_cons_of_mem e hf)
      rw [replaceTargets_cons lib hvalue]
      by_cases hname : e.1 = firstSegment call
      · have hsub : substituted (e :: order) call = e.2 ++ behindSegment call := by
          unfold substituted
          rw [List.lookup_cons, hname, beq_self_eq_true]
        have hkept : ∀ f ∈ order, f.2 ≠ "" ∧
            replaceTarget lib f (e.2 ++ behindSegment call) = .ok (e.2 ++ behindSegment call) := by
          intro f hf
          have hne : f.1 ≠ e.1 := fun heq => hnodup.1 (heq ▸ List.mem_map_of_mem hf)
          exact ⟨(hrest f hf).2, hexact.kept e hmem hname f (hrest f hf).1 hne⟩
        rw [hexact.own e hmem hname, hsub]
        exact replaceTargets_kept hkept
      · have hsub : substituted (e :: order) call = substituted order call := by
          unfold substituted
          rw [List.lookup_cons, beq_false_of_ne (Ne.symm hname)]
        rw [hexact.others e hmem hname, hsub]
        exact replaceTargets_exact hexact hrest hnodup.2

/-- The code substitutes in every order, behind every number of entries. -/
def Substitutes (lib : JavaLib) (mapping : List (String × String)) (call : String) : Prop :=
  ∀ order : List (String × String), order.Perm mapping → ∀ k, replaceTargets lib true (order.take k) (some call) =
    .ok (some (substituted (order.take k) call))

/-- The first one or two entries of an order say what each entry does. -/
theorem exact_of_substitutes (hvalues : ∀ e ∈ mapping, e.2 ≠ "")
    (h : Substitutes lib mapping call) : Exact lib mapping call := by
  have hfirst : ∀ e ∈ mapping, replaceTarget lib e call = .ok (substituted [e] call) := by
    intro e he
    have hrun := h (e :: mapping.erase e) (List.perm_cons_erase he).symm 1
    rw [List.take_succ_cons, List.take_zero, replaceTargets_cons lib (hvalues e he)] at hrun
    obtain ⟨s, hs, hrest⟩ := ok_of_bind hrun
    rw [hs, Option.some.inj (Except.ok.inj hrest)]
  have hown : ∀ e ∈ mapping, e.1 = firstSegment call →
      replaceTarget lib e call = .ok (e.2 ++ behindSegment call) := by
    intro e he hname
    rw [hfirst e he, substituted, List.lookup_cons, hname, beq_self_eq_true]
  refine ⟨fun e he hname => ?_, hown, fun e he hname f hf hne => ?_⟩
  · rw [hfirst e he, substituted, List.lookup_cons, beq_false_of_ne (Ne.symm hname)]
    rfl
  · have hf' : f ∈ mapping.erase e := by
      refine (List.mem_erase_of_ne ?_).mpr hf
      rintro rfl
      exact hne rfl
    have hperm : mapping.Perm (e :: f :: (mapping.erase e).erase f) :=
      (List.perm_cons_erase he).trans ((List.perm_cons_erase hf').cons e)
    have hrun := h (e :: f :: (mapping.erase e).erase f) hperm.symm 2
    have hsub : substituted [e, f] call = e.2 ++ behindSegment call := by
      unfold substituted
      rw [List.lookup_cons, hname, beq_self_eq_true]
    rw [List.take_succ_cons, List.take_succ_cons, List.take_zero, hsub,
      replaceTargets_cons lib (hvalues e he), hown e he hname] at hrun
    have hsecond : replaceTargets lib true [f] (some (e.2 ++ behindSegment call)) =
        .ok (some (e.2 ++ behindSegment call)) := hrun
    rw [replaceTargets_cons lib (hvalues f hf)] at hsecond
    obtain ⟨s, hs, hrest⟩ := ok_of_bind hsecond
    rw [hs, Option.some.inj (Except.ok.inj hrest)]

/-- **One call.** -/
theorem substitutes_iff (hnames : (mapping.map Prod.fst).Nodup) (hvalues : ∀ e ∈ mapping, e.2 ≠ "") :
    Substitutes lib mapping call ↔ Exact lib mapping call := by
  refine ⟨exact_of_substitutes hvalues, fun hexact order hperm k => ?_⟩
  refine replaceTargets_exact hexact (fun e he => ?_) ?_
  · have hmem : e ∈ mapping := hperm.mem_iff.mp (List.mem_of_mem_take he)
    exact ⟨hmem, hvalues e hmem⟩
  · rw [List.map_take]
    exact ((hperm.map Prod.fst).nodup_iff.mpr hnames).sublist (List.take_sublist _ _)

end one

/-! ### A whole trace -/

/-- The calls of a trace become `f` of them if and only if each of them does. -/
theorem replaceCalls_eq_iff (res : StaticResources) (lib : JavaLib) (f : String → String) :
    ∀ {ns : List PowerTraceNode}, (∀ n ∈ ns, n.call.isSome) →
      (res.replaceCalls lib true ns = .ok (ns.map fun n => { n with call := n.call.map f }) ↔
        ∀ n ∈ ns, ∀ call, n.call = some call →
          replaceTargets lib true res.targetMapping (some call) = .ok (some (f call)))
  | [], _ => by simp [replaceCalls]
  | n :: ns, hcalls => by
      obtain ⟨call, hcall⟩ := Option.isSome_iff_exists.mp (hcalls n List.mem_cons_self)
      have ih := replaceCalls_eq_iff res lib f fun m hm => hcalls m (List.mem_cons_of_mem n hm)
      rw [List.forall_mem_cons, ← ih, replaceCalls, hcall, List.map_cons, hcall]
      constructor
      · intro h
        obtain ⟨call', hcall', h⟩ := ok_of_bind h
        obtain ⟨ns', hns', h⟩ := ok_of_bind h
        obtain ⟨hnode, hrest⟩ := List.cons.inj (Except.ok.inj h)
        refine ⟨fun c hc => ?_, by rw [hns', hrest]⟩
        obtain rfl := Option.some.inj hc
        have hsame := congrArg PowerTraceNode.call hnode
        simp only [Option.map_some] at hsame
        rw [hcall', hsame]
      · rintro ⟨hnode, hrest⟩
        rw [hnode call rfl, hrest]
        rfl

/-- The case with every call substituted. -/
def substitutedCase (mapping : List (String × String)) (requestCase : Instruction) : Instruction :=
  { requestCase with
    trace := requestCase.trace.map (List.map fun n => { n with call := n.call.map (substituted mapping) }) }

/-- The calls of a case are substituted if and only if each call of its trace is. -/
theorem processTargetMappingForTrace_eq_iff (res : StaticResources) (lib : JavaLib)
    {requestCase : Instruction} (hcalls : ∀ n ∈ requestCase.nodes, n.call.isSome) :
    res.processTargetMappingForTrace lib requestCase =
        .ok (substitutedCase res.targetMapping requestCase) ↔
      ∀ n ∈ requestCase.nodes, ∀ call, n.call = some call →
        replaceTargets lib true res.targetMapping (some call) =
          .ok (some (substituted res.targetMapping call)) := by
  rw [← replaceCalls_eq_iff res lib (substituted res.targetMapping) hcalls]
  obtain ⟨trace, times, threads, qps, propagateHeaders, collectBy, tmpl, log, rr, info⟩ := requestCase
  cases trace with
  | none => exact ⟨fun _ => rfl, fun _ => rfl⟩
  | some ns =>
      constructor
      · intro h
        obtain ⟨ns', hns', h⟩ := ok_of_bind h
        have htraces := Option.some.inj (congrArg Instruction.trace (Except.ok.inj h))
        have hrun : res.replaceCalls lib true ns = .ok ns' := hns'
        rw [Instruction.nodes, Option.getD_some, hrun]
        exact congrArg Except.ok htraces
      · intro h
        have hrun : res.replaceCalls lib true ns =
          .ok (ns.map fun n => { n with call := n.call.map (substituted res.targetMapping) }) := h
        unfold processTargetMappingForTrace
        simp only [hrun]
        rfl

/-- The calls of a case are substituted in every order of the mapping, behind every number of its
entries. -/
def Rewritten (res : StaticResources) (lib : JavaLib) (requestCase : Instruction) : Prop :=
  ∀ order : List (String × String), order.Perm res.targetMapping → ∀ k,
    ({ res with targetMapping := order.take k } : StaticResources).processTargetMappingForTrace lib
      requestCase = .ok (substitutedCase (order.take k) requestCase)

/-- A case is rewritten if and only if the entries do to each call what they should. -/
theorem rewritten_iff_exact (res : StaticResources) (lib : JavaLib) {requestCase : Instruction}
    (hnames : (res.targetMapping.map Prod.fst).Nodup) (hvalues : ∀ e ∈ res.targetMapping, e.2 ≠ "")
    (hcalls : ∀ n ∈ requestCase.nodes, n.call.isSome) :
    Rewritten res lib requestCase ↔
      ∀ n ∈ requestCase.nodes, ∀ call, n.call = some call → Exact lib res.targetMapping call := by
  unfold Rewritten
  simp only [fun mapping => processTargetMappingForTrace_eq_iff { res with targetMapping := mapping } lib hcalls]
  constructor
  · intro h n hn call hcall
    exact (substitutes_iff hnames hvalues).mp fun order hperm k => h order hperm k n hn call hcall
  · intro h order hperm k n hn call hcall
    exact (substitutes_iff hnames hvalues).mpr (h n hn call hcall) order hperm k

/-! ### Names and values that stand for themselves -/

/-- The characters with a meaning in a regular expression. -/
def metaCharacters : List Char := ['\\', '^', '$', '.', '|', '?', '*', '+', '(', ')', '[', ']', '\x7b', '\x7d']

/-- A name that stands for itself in a regular expression, on one line. -/
def LiteralName (name : String) : Prop := ∀ c ∈ name.toList, c ∉ metaCharacters ∧ isLineTerminator c = false

/-- A replacement text that is inserted as it stands. -/
def LiteralValue (value : String) : Prop := ∀ c ∈ value.toList, c ≠ '$' ∧ c ≠ '\\'

instance (name : String) : Decidable (LiteralName name) :=
  inferInstanceAs (Decidable (∀ c ∈ name.toList, c ∉ metaCharacters ∧ isLineTerminator c = false))

instance (value : String) : Decidable (LiteralValue value) :=
  inferInstanceAs (Decidable (∀ c ∈ value.toList, c ≠ '$' ∧ c ≠ '\\'))

def Literal (mapping : List (String × String)) : Prop :=
  ∀ e ∈ mapping, LiteralName e.1 ∧ LiteralValue e.2

instance (mapping : List (String × String)) : Decidable (Literal mapping) :=
  inferInstanceAs (Decidable (∀ e ∈ mapping, LiteralName e.1 ∧ LiteralValue e.2))

/-- What may stand behind the last character of a text: nothing, or a line terminator. -/
def ends : List String := ["", "\n", "\r\n", "\r", "\u0085", "\u2028", "\u2029"]

/-- `String.replaceAll` for such names and values: the name matches itself, at the beginning. -/
structure ReadsLiteral (lib : JavaLib) : Prop where
  slash : ∀ {name value : String}, LiteralName name → LiteralValue value → ∀ rest,
    lib.replaceAll ("^" ++ name ++ "/") (value ++ "/") (name ++ ("/" ++ rest)) =
      .ok (value ++ ("/" ++ rest))
  slash_ne : ∀ {name value s : String}, LiteralName name → (∀ rest, s ≠ name ++ ("/" ++ rest)) →
    lib.replaceAll ("^" ++ name ++ "/") (value ++ "/") s = .ok s
  whole : ∀ {name value : String}, LiteralName name → LiteralValue value → ∀ rest ∈ ends,
    lib.replaceAll ("^" ++ name ++ "$") value (name ++ rest) = .ok (value ++ rest)
  whole_ne : ∀ {name value s : String}, LiteralName name → (∀ rest ∈ ends, s ≠ name ++ rest) →
    lib.replaceAll ("^" ++ name ++ "$") value s = .ok s

/-- What stands in the text `s` behind a name that applies to it: a slash, or in a text without one
the end. -/
def Behind (s rest : String) : Prop := if '/' ∈ s.toList then startsWith rest "/" = true else rest ∈ ends

instance (s rest : String) : Decidable (Behind s rest) :=
  inferInstanceAs (Decidable (if '/' ∈ s.toList then startsWith rest "/" = true else rest ∈ ends))

/-- The name applies to the text. -/
def Applies (name s : String) : Prop := ∃ rest, s = name ++ rest ∧ Behind s rest

theorem substring_append (name rest : String) : substring (name ++ rest) name.length = rest := by
  unfold substring
  rw [String.toList_append, ← String.length_toList, List.drop_left, String.ofList_toList]

instance (name s : String) : Decidable (Applies name s) :=
  decidable_of_iff (s = name ++ substring s name.length ∧ Behind s (substring s name.length))
    ⟨fun h => ⟨_, h⟩, fun ⟨rest, hs, hbehind⟩ => by
      subst hs
      rw [substring_append]
      exact ⟨rfl, hbehind⟩⟩

/-- No entry of another name applies to the call, nor to the call that is substituted, unless its value
is its name. -/
structure Apart (mapping : List (String × String)) (call : String) : Prop where
  others : ∀ e ∈ mapping, e.1 ≠ firstSegment call → Applies e.1 call → e.2 = e.1
  kept : ∀ e ∈ mapping, e.1 = firstSegment call → ∀ f ∈ mapping, f.1 ≠ e.1 →
    Applies f.1 (e.2 ++ behindSegment call) → f.2 = f.1

instance (mapping : List (String × String)) (call : String) : Decidable (Apart mapping call) :=
  decidable_of_iff ((∀ e ∈ mapping, e.1 ≠ firstSegment call → Applies e.1 call → e.2 = e.1) ∧
      ∀ e ∈ mapping, e.1 = firstSegment call → ∀ f ∈ mapping, f.1 ≠ e.1 →
        Applies f.1 (e.2 ++ behindSegment call) → f.2 = f.1)
    ⟨fun h => ⟨h.1, h.2⟩, fun h => ⟨h.others, h.kept⟩⟩

theorem startsWith_slash_iff (s : String) : startsWith s "/" = true ↔ ∃ tail, s = "/" ++ tail := by
  have hslash : "/".toList = ['/'] := rfl
  unfold startsWith
  rw [List.isPrefixOf_iff_prefix, hslash]
  constructor
  · rintro ⟨tail, htail⟩
    refine ⟨String.ofList tail, String.toList_inj.mp ?_⟩
    rw [String.toList_append, hslash, String.toList_ofList]
    exact htail.symm
  · rintro ⟨tail, rfl⟩
    rw [String.toList_append]
    exact ⟨tail.toList, rfl⟩

theorem segments_eq (call : String) : firstSegment call ++ behindSegment call = call := by
  unfold firstSegment behindSegment
  rw [← String.ofList_append, List.takeWhile_append_dropWhile, String.ofList_toList]

/-- A call with a slash has it right behind its first segment. -/
theorem behindSegment_slash {s : String} (hslash : '/' ∈ s.toList) :
    ∃ rest, behindSegment s = "/" ++ rest := by
  cases hbehind : s.toList.dropWhile (· ≠ '/') with
  | nil =>
      rw [List.dropWhile_eq_nil_iff] at hbehind
      exact absurd (hbehind '/' hslash) (by simp)
  | cons c rest =>
      have hc := List.head_dropWhile_not (fun c : Char => decide (c ≠ '/')) (l := s.toList)
        (by rw [hbehind]; exact List.cons_ne_nil c rest)
      simp only [hbehind, List.head_cons, decide_eq_false_iff_not, not_not] at hc
      refine ⟨String.ofList rest, ?_⟩
      unfold behindSegment
      rw [hbehind, hc, ← List.singleton_append, String.ofList_append]

theorem segments_of_noSlash {s : String} (hslash : '/' ∉ s.toList) :
    firstSegment s = s ∧ behindSegment s = "" := by
  have hall : ∀ c ∈ s.toList, decide (c ≠ '/') = true :=
    fun c hc => decide_eq_true fun heq => hslash (heq ▸ hc)
  unfold firstSegment behindSegment
  rw [List.takeWhile_eq_self_iff.mpr hall, List.dropWhile_eq_nil_iff.mpr hall, String.ofList_toList]
  exact ⟨rfl, rfl⟩

/-- The first segment applies to its call. -/
theorem behind_firstSegment (call : String) : Behind call (behindSegment call) := by
  unfold Behind
  by_cases hslash : '/' ∈ call.toList
  · rw [if_pos hslash]
    exact (startsWith_slash_iff _).mpr (behindSegment_slash hslash)
  · rw [if_neg hslash, (segments_of_noSlash hslash).2]
    exact List.mem_cons_self

section literal
variable {lib : JavaLib} (hlib : ReadsLiteral lib) {e : String × String} (hname : LiteralName e.1)

include hlib hname

/-- One round for a name that applies. -/
theorem replaceTarget_applies (hvalue : LiteralValue e.2) {s rest : String} (hs : s = e.1 ++ rest)
    (hbehind : Behind s rest) : replaceTarget lib e s = .ok (e.2 ++ rest) := by
  unfold Behind at hbehind
  unfold replaceTarget
  by_cases hslash : '/' ∈ s.toList
  · rw [if_pos hslash] at hbehind ⊢
    obtain ⟨tail, rfl⟩ := (startsWith_slash_iff rest).mp hbehind
    rw [hs, hlib.slash hname hvalue]
  · rw [if_neg hslash] at hbehind ⊢
    rw [hs, hlib.whole hname hvalue rest hbehind]

/-- One round for a name that does not. -/
theorem replaceTarget_notApplies {s : String} (h : ¬ Applies e.1 s) : replaceTarget lib e s = .ok s := by
  unfold Applies Behind at h
  unfold replaceTarget
  by_cases hslash : '/' ∈ s.toList
  · rw [if_pos hslash]
    refine hlib.slash_ne hname fun tail hs => h ⟨"/" ++ tail, hs, ?_⟩
    rw [if_pos hslash]
    exact (startsWith_slash_iff _).mpr ⟨tail, rfl⟩
  · rw [if_neg hslash]
    refine hlib.whole_ne hname fun rest hrest hs => h ⟨rest, hs, ?_⟩
    rw [if_neg hslash]
    exact hrest

/-- A round leaves a text alone if and only if its name does not apply, or its value is its name. -/
theorem replaceTarget_kept_iff (hvalue : LiteralValue e.2) (s : String) :
    replaceTarget lib e s = .ok s ↔ (Applies e.1 s → e.2 = e.1) := by
  constructor
  · rintro hkept ⟨rest, hs, hbehind⟩
    rw [replaceTarget_applies hlib hname hvalue hs hbehind] at hkept
    exact (String.append_left_inj rest).mp ((Except.ok.inj hkept).trans hs)
  · intro h
    by_cases happlies : Applies e.1 s
    · obtain ⟨rest, hs, hbehind⟩ := happlies
      rw [replaceTarget_applies hlib hname hvalue hs hbehind, h ⟨rest, hs, hbehind⟩, hs]
    · exact replaceTarget_notApplies hlib hname happlies

end literal

/-- **Literal mappings** substitute in a call if and only if they keep apart. -/
theorem exact_iff_apart {lib : JavaLib} (hlib : ReadsLiteral lib) {mapping : List (String × String)}
    (hliteral : Literal mapping) (call : String) : Exact lib mapping call ↔ Apart mapping call := by
  have hkept : ∀ e ∈ mapping, ∀ s, replaceTarget lib e s = .ok s ↔ (Applies e.1 s → e.2 = e.1) :=
    fun e he s => replaceTarget_kept_iff hlib (hliteral e he).1 (hliteral e he).2 s
  constructor
  · intro hexact
    refine ⟨fun e he hne => (hkept e he call).mp (hexact.others e he hne), fun e he hname f hf hne => ?_⟩
    exact (hkept f hf _).mp (hexact.kept e he hname f hf hne)
  · intro hapart
    refine ⟨fun e he hne => (hkept e he call).mpr (hapart.others e he hne), fun e he hname => ?_,
      fun e he hname f hf hne => (hkept f hf _).mpr (hapart.kept e he hname f hf hne)⟩
    have hcall : call = e.1 ++ behindSegment call := by rw [hname, segments_eq]
    exact replaceTarget_applies hlib (hliteral e he).1 (hliteral e he).2 hcall (behind_firstSegment call)

/-- What is left of a text behind a name in which a dot stands for any character. -/
def dotPrefix : List Char → List Char → Option (List Char)
  | [], s => some s
  | c :: name, d :: s => if c = '.' ∨ c = d then dotPrefix name s else none
  | _ :: _, [] => none

/-- A library that knows names with dots. -/
def dotLib : JavaLib where
  «matches» _ _ := none
  replaceAll regex replacement s :=
    let name := (regex.toList.drop 1).dropLast
    if regex.toList.getLast? = some '/' then
      .ok ((dotPrefix (name ++ ['/']) s.toList).elim s fun rest => replacement ++ String.ofList rest)
    else match dotPrefix name s.toList with
      | some rest => .ok (if String.ofList rest ∈ ends then replacement ++ String.ofList rest else s)
      | none => .ok s
  parseDouble _ := none

theorem dotPrefix_iff : ∀ {name : List Char}, (∀ c ∈ name, c ≠ '.') → ∀ s rest : List Char,
    dotPrefix name s = some rest ↔ s = name ++ rest
  | [], _, s, rest => by simp [dotPrefix]
  | c :: name, _, [], rest => by simp [dotPrefix]
  | c :: name, hname, d :: s, rest => by
      obtain ⟨hc, hname⟩ := List.forall_mem_cons.mp hname
      rw [List.cons_append, List.cons.injEq, dotPrefix]
      by_cases hcd : c = d
      · rw [if_pos (Or.inr hcd), dotPrefix_iff hname s rest]
        exact ⟨fun h => ⟨hcd.symm, h⟩, fun h => h.2⟩
      · rw [if_neg (not_or.mpr ⟨hc, hcd⟩)]
        refine ⟨fun h => (by cases h), fun h => absurd h.1.symm hcd⟩

theorem literal_ne_dot {name : String} (hname : LiteralName name) : ∀ c ∈ name.toList, c ≠ '.' := by
  rintro c hc rfl
  exact absurd (hname '.' hc).1 (by decide)

theorem dotLib_name (name : String) (c : Char) :
    (("^" ++ name ++ String.singleton c).toList.drop 1).dropLast = name.toList ∧
      ("^" ++ name ++ String.singleton c).toList.getLast? = some c := by
  have hlist : ("^" ++ name ++ String.singleton c).toList = '^' :: (name.toList ++ [c]) := by
    simp [String.toList_append]
  rw [hlist]
  constructor
  · rw [List.drop_one, List.tail_cons, List.dropLast_concat]
  · rw [← List.cons_append, List.getLast?_concat]

theorem dotLib_slash (name replacement s : String) :
    dotLib.replaceAll ("^" ++ name ++ "/") replacement s =
      .ok ((dotPrefix (name.toList ++ ['/']) s.toList).elim s fun rest =>
        replacement ++ String.ofList rest) := by
  obtain ⟨hname, hlast⟩ := dotLib_name name '/'
  have hregex : "^" ++ name ++ "/" = "^" ++ name ++ String.singleton '/' := rfl
  rw [hregex]
  unfold dotLib
  simp only [hname, hlast, if_true]

theorem dotLib_whole (name replacement s : String) :
    dotLib.replaceAll ("^" ++ name ++ "$") replacement s =
      match dotPrefix name.toList s.toList with
      | some rest => .ok (if String.ofList rest ∈ ends then replacement ++ String.ofList rest else s)
      | none => .ok s := by
  obtain ⟨hname, hlast⟩ := dotLib_name name '$'
  have hregex : "^" ++ name ++ "$" = "^" ++ name ++ String.singleton '$' := rfl
  have hdollar : ¬ some '$' = some '/' := by decide
  rw [hregex]
  unfold dotLib
  simp only [hname, hlast, if_neg hdollar]

theorem dotLib_readsLiteral : ReadsLiteral dotLib := by
  have hslashes : ∀ {name : String}, LiteralName name → ∀ c ∈ name.toList ++ ['/'], c ≠ '.' := by
    intro name hname c hc
    rw [List.mem_append, List.mem_singleton] at hc
    rcases hc with hc | rfl
    · exact literal_ne_dot hname c hc
    · decide
  have htext : ∀ name rest : String, (name ++ ("/" ++ rest)).toList =
      name.toList ++ ['/'] ++ rest.toList := fun name rest => by
    rw [String.toList_append, String.toList_append, List.append_assoc]
    rfl
  constructor
  · intro name value hname _ rest
    rw [dotLib_slash, (dotPrefix_iff (hslashes hname) _ rest.toList).mpr (htext name rest),
      Option.elim_some, String.ofList_toList, String.append_assoc]
  · intro name value s hname hne
    rw [dotLib_slash]
    cases hprefix : dotPrefix (name.toList ++ ['/']) s.toList with
    | none => rfl
    | some rest =>
        have hs := (dotPrefix_iff (hslashes hname) _ rest).mp hprefix
        refine absurd (String.toList_inj.mp ?_) (hne (String.ofList rest))
        rw [hs, htext, String.toList_ofList]
  · intro name value hname _ rest hrest
    rw [dotLib_whole, (dotPrefix_iff (literal_ne_dot hname) _ rest.toList).mpr (String.toList_append ..)]
    simp only [String.ofList_toList, if_pos hrest]
  · intro name value s hname hne
    rw [dotLib_whole]
    cases hprefix : dotPrefix name.toList s.toList with
    | none => rfl
    | some rest =>
        have hs := (dotPrefix_iff (literal_ne_dot hname) _ rest).mp hprefix
        refine congrArg Except.ok (if_neg fun hrest => hne _ hrest (String.toList_inj.mp ?_))
        rw [hs, String.toList_append, String.toList_ofList]

/-- The mapping of one node's call. -/
def oneCall (call : String) : Instruction where
  trace := some [{ call := some call }]
  collectBy := none
  traceNodeTmpl := none

/-- The targets of two services on one machine. -/
def localMapping : List (String × String) := [("a", "127.0.0.1:8080"), ("b", "127.0.0.1:8081")]

end StaticResources

end Powerful
