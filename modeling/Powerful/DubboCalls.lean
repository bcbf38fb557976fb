import Mathlib
import Powerful.HeaderVisibility

/-! # Calls over Dubbo

`DubboRemoteInvoker.invoke` puts the headers of the node into the attachments of the thread.  Then
it looks for the field, the method and the arguments that the call names (`invokeDubbo`), and calls
the method.  The remote call carries all attachments of the thread, and Dubbo clears them behind it.

A call that fails before the method is reached leaves its headers to the calls behind it.
`carriesOwn_iff` says for every run of calls when each remote call carries the headers of its own
node: when it overwrites all that is left. -/

namespace Powerful

variable {ρ : Type}

/-! ### Services and their methods -/

inductive JavaType where
  | instruction
  | string
  | other (name : String)
deriving DecidableEq

structure Method where
  name : String
  parameterTypes : List JavaType

/-- The number of the parameters that are no `Instruction`. -/
def Method.paramCount (m : Method) : ℕ := (m.parameterTypes.filter (· ≠ .instruction)).length

/-- An exception that `invoke` answers with: one of Dubbo, or another one by the name of its class. -/
inductive Thrown where
  | rpc (code : ℕ) (message : Option String)
  | other (simpleName : String) (message : Option String)

/-- What Jackson does with the texts of arguments.  `readValue` fails with the text of a
`JsonParseException` or of a `JsonMappingException`. -/
structure Jackson where
  readList : String → Except Thrown (List Json)
  writeValueAsString : Json → String
  readValue : String → JavaType → Except String DubboArg

/-- The method of a service, and its arguments. -/
structure DubboTarget where
  field : String
  method : Method
  arguments : List DubboArg

/-- The attachments of a thread: those of its next call, and those that came with its last answer. -/
structure RpcContext where
  attachments : Headers := ∅
  server : Headers := ∅

/-- The invoker: the declared methods of the service classes, and the fields that hold their
references, with whether Dubbo has injected one. -/
structure DubboRemoteInvoker where
  jackson : Jackson
  fieldToClass : List (String × List Method)
  fields : List (String × Bool)
  remote : DubboTarget → Headers → Except Thrown Json × Headers

namespace Gen

def appNameToClassName (appName : String) : String :=
  String.ofList (appName.toList.map fun c => if c = '-' then '_' else c)

def genFieldName (app service : String) : String :=
  "gen_dubbo" ++ service ++ "_" ++ appNameToClassName app

end Gen

namespace DubboRemoteInvoker

def unmarshalParam (jackson : Jackson) (s : String) (type : JavaType) : Except Thrown DubboArg :=
  match jackson.readValue s type with
  | .ok a => .ok a
  | .error text => if type = .string then .ok (.string s)
      else .error (.other "IllegalStateException" (some text))

/-- The arguments of a method: the instruction, and the parameters in order. -/
def arguments (jackson : Jackson) : List JavaType → List String → Except Thrown (List DubboArg)
  | [], _ => .ok []
  | .instruction :: types, params => do
      let rest ← arguments jackson types params
      .ok (.instruction :: rest)
  | type :: types, s :: params => do
      let a ← unmarshalParam jackson s type
      let rest ← arguments jackson types params
      .ok (a :: rest)
  | _ :: _, [] => .error (.other "IndexOutOfBoundsException" (some "Index: 0, Size: 0"))

/-- The texts of the parameters: the elements of a list, or the parts of a path. -/
def paramTexts (jackson : Jackson) (paramsStr : String) : Except Thrown (List String) :=
  if startsWith paramsStr "[" ∧ paramsStr.toList.getLast? = some ']' then do
    let os ← jackson.readList paramsStr
    .ok (os.map jackson.writeValueAsString)
  else .ok (split '/' paramsStr)

/-- The filter of `dynamicInvoke`. -/
def accepts (methodName : String) (params : List String) (m : Method) : Bool :=
  m.name = methodName && m.paramCount = params.length

variable (inv : DubboRemoteInvoker)

/-- `dynamicInvoke` up to the call of the method, which fails if there is no reference. -/
def dynamicInvoke (field : String) (injected : Bool) (methodName paramsStr : String) :
    Except Thrown DubboTarget := do
  let params ← paramTexts inv.jackson paramsStr
  match inv.fieldToClass.lookup field with
  | none => .error (.other "NullPointerException" none)
  | some methods => match methods.find? (accepts methodName params) with
    | none => .error (.other "NoSuchElementException" (some "No value present"))
    | some method => do
        let args ← arguments inv.jackson method.parameterTypes params
        if injected then .ok ⟨field, method, args⟩ else .error (.other "NullPointerException" none)

/-- The target that a call names. -/
def invokeDubbo (call : Option String) : Except Thrown DubboTarget :=
  match call with
  | none => .error (.other "NullPointerException" none)
  | some call => match split '/' call with
    | app :: service :: methodName :: rest =>
        let field := Gen.genFieldName (Gen.appNameToClassName app) service
        match inv.fields.lookup field with
        | none => .error (.other "NoSuchFieldException" (some field))
        | some injected => inv.dynamicInvoke field injected methodName (String.intercalate "/" rest)
    | path => .error (.other "ArrayIndexOutOfBoundsException" (some (toString path.length)))

/-! ### The invocation -/

def codeToStatus : List String := ["UNKNOWN", "NETWORK", "TIMEOUT", "BIZ", "FORBIDDEN", "SERIALIZATION"]

def getPowerfulResponse (e : Thrown) (responseHeaders : Headers) : Except Exc PowerfulResponse :=
  match e with
  | .rpc code message => match codeToStatus[code]? with
    | some status => .ok ⟨responseHeaders, ofString message, some ("DUBBO_" ++ status)⟩
    | none => .error (.indexOutOfBounds (toString code))
  | .other simpleName message => .ok ⟨responseHeaders, ofString message, some simpleName⟩

/-- What an invocation leaves: its response, the attachments of the thread, and the remote call
that was made, with what it carried. -/
structure Invocation where
  response : Except Exc PowerfulResponse
  context : RpcContext
  call : Option (DubboTarget × Headers)

/-- A checked exception is wrapped. -/
def rethrown : Exc → Exc
  | .jsonMapping msg => .runtime
      (some ("com.fasterxml.jackson.databind.JsonMappingException: " ++ msg)) (some (.jsonMapping msg))
  | e => e

variable (h : Host ρ) (arrays : ArrayDiff)

def invoke (i : Instruction) (ctx : RpcContext) : Invocation :=
  match i.currentNode with
  | none => ⟨.error .nullPointer, ctx, none⟩
  | some node => match node.headers with
    | none => ⟨.error .nullPointer, ctx, none⟩
    | some own =>
        let attached := { ctx with attachments := attach own ctx.attachments }
        match logged h arrays i with
        | .error e => ⟨.error (rethrown e), attached, none⟩
        | .ok _ => match inv.invokeDubbo node.call with
          -- without attachments the call counts as made, and the last answer is taken for its own
          | .error e => ⟨getPowerfulResponse e
              (if attached.attachments = ∅ then ctx.server else ∅), attached, none⟩
          | .ok target =>
              let (result, server) := inv.remote target attached.attachments
              ⟨match result with
                | .ok value => .ok ⟨server, value, some "OK"⟩
                | .error e => getPowerfulResponse e server,
                ⟨∅, server⟩, some (target, attached.attachments)⟩

/-! ### What a call carries -/

/-- The headers of the node that is called. -/
def ownHeaders (i : Instruction) : Option Headers := i.currentNode.bind PowerTraceNode.headers

/-- The call is logged and its target found, so that the remote call is made. -/
def Reaches (i : Instruction) : Prop :=
  (∃ u, logged h arrays i = .ok u) ∧ ∃ target, inv.invokeDubbo (i.currentNode.bind PowerTraceNode.call) = .ok target

/-- The headers of a node go over those that are left; a null value takes one away. -/
theorem lookup_attach_eq (own attachments : Headers) (k : String) :
    (attach own attachments).lookup k = (own.lookup k).elim (attachments.lookup k) (Option.map some) := by
  have hput : ∀ (m : Headers) (e : Sigma fun _ : String => Option String) (k : String), k ≠ e.1 →
      (setAttachment e.1 e.2 m).lookup k = m.lookup k :=
    fun m e k hk => lookup_setAttachment_ne hk e.2 m
  cases hk : own.lookup k with
  | none =>
      refine StringMap.lookup_foldl_put_ne Sigma.fst hput own.entries attachments fun hmem => ?_
      exact AList.lookup_eq_none.mp hk (AList.mem_keys.mpr hmem)
  | some value =>
      have hmem : (⟨k, value⟩ : Sigma fun _ : String => Option String) ∈ own.entries :=
        AList.mem_lookup_iff.mp hk
      refine StringMap.lookup_foldl_put Sigma.fst hput own.entries attachments own.nodupKeys hmem fun m => ?_
      cases value with
      | none => exact AList.lookup_erase k m
      | some text => exact AList.lookup_insert m

/-- What is carried are the own headers if and only if these overwrite all that is left and none of
them is null. -/
theorem attach_eq_own_iff (own attachments : Headers) :
    (∀ k, (attach own attachments).lookup k = own.lookup k) ↔
      (∀ k ∈ attachments, k ∈ own) ∧ ∀ k, own.lookup k ≠ some none := by
  constructor
  · intro hsame
    constructor
    · intro k hk
      by_contra hown
      have hlookup := hsame k
      rw [lookup_attach_eq, AList.lookup_eq_none.mpr hown, Option.elim_none] at hlookup
      exact AList.lookup_eq_none.mp hlookup hk
    · intro k hnull
      have hlookup := hsame k
      rw [lookup_attach_eq, hnull, Option.elim_some] at hlookup
      cases hlookup
  · rintro ⟨hleft, hnull⟩ k
    rw [lookup_attach_eq]
    cases hk : own.lookup k with
    | none =>
        have hown : k ∉ own := AList.lookup_eq_none.mp hk
        exact AList.lookup_eq_none.mpr fun hmem => hown (hleft k hmem)
    | some value =>
        cases value with
        | none => exact absurd hk (hnull k)
        | some text => rfl

/-- **One invocation**: the headers are attached, and a remote call carries the attachments and
clears them. -/
theorem invoke_cases (i : Instruction) (ctx : RpcContext) :
    (ownHeaders i = none ∧ inv.invoke h arrays i ctx = ⟨.error .nullPointer, ctx, none⟩) ∨
    ∃ own, ownHeaders i = some own ∧
      ((¬ inv.Reaches h arrays i ∧ (inv.invoke h arrays i ctx).call = none ∧
        (inv.invoke h arrays i ctx).context.attachments = attach own ctx.attachments) ∨
      (inv.Reaches h arrays i ∧
        (∃ target, (inv.invoke h arrays i ctx).call = some (target, attach own ctx.attachments)) ∧
        (inv.invoke h arrays i ctx).context.attachments = ∅)) := by
  unfold invoke ownHeaders Reaches
  cases i.currentNode with
  | none => exact Or.inl ⟨rfl, rfl⟩
  | some node =>
      simp only [Option.bind_some]
      cases node.headers with
      | none => exact Or.inl ⟨rfl, rfl⟩
      | some own =>
          refine Or.inr ⟨own, rfl, ?_⟩
          simp only
          cases logged h arrays i with
          | error e =>
              refine Or.inl ⟨?_, rfl, rfl⟩
              rintro ⟨⟨u, hu⟩, -⟩
              cases hu
          | ok u =>
              cases inv.invokeDubbo node.call with
              | error e =>
                  refine Or.inl ⟨?_, rfl, rfl⟩
                  rintro ⟨-, target, htarget⟩
                  cases htarget
              | ok target => exact Or.inr ⟨⟨⟨u, rfl⟩, target, rfl⟩, ⟨target, rfl⟩, rfl⟩

/-! ### Runs -/

/-- The attachments of the thread after a run of calls. -/
def contextAfter (run : List Instruction) (ctx : RpcContext) : RpcContext :=
  run.foldl (fun ctx i => (inv.invoke h arrays i ctx).context) ctx

/-- The remote calls of a run, each with the instruction it was made for and what it carried. -/
def calls : List Instruction → RpcContext → List (Instruction × DubboTarget × Headers)
  | [], _ => []
  | i :: is, ctx =>
      (inv.invoke h arrays i ctx).call.toList.map (fun c => (i, c)) ++
        calls is (inv.invoke h arrays i ctx).context

/-- Every remote call of a run carries the headers of its own node. -/
def CarriesOwn (run : List Instruction) (ctx : RpcContext) : Prop :=
  ∀ c ∈ inv.calls h arrays run ctx, ∃ own, ownHeaders c.1 = some own ∧
    ∀ k, c.2.2.lookup k = own.lookup k

theorem mem_calls_iff {c : Instruction × DubboTarget × Headers} : ∀ {run : List Instruction} {ctx : RpcContext},
    c ∈ inv.calls h arrays run ctx ↔ ∃ before behind, run = before ++ c.1 :: behind ∧
      (inv.invoke h arrays c.1 (inv.contextAfter h arrays before ctx)).call = some c.2
  | [], ctx => by simp [calls]
  | i :: is, ctx => by
      unfold calls
      rw [List.mem_append, mem_calls_iff, List.mem_map]
      constructor
      · rintro (⟨t, ht, rfl⟩ | ⟨before, behind, rfl, hcall⟩)
        · exact ⟨[], is, rfl, Option.mem_toList.mp ht⟩
        · exact ⟨i :: before, behind, rfl, hcall⟩
      · rintro ⟨before, behind, hrun, hcall⟩
        cases before with
        | nil =>
            obtain ⟨rfl, rfl⟩ := List.cons.inj hrun
            exact Or.inl ⟨c.2, Option.mem_toList.mpr hcall, rfl⟩
        | cons j before =>
            obtain ⟨rfl, rfl⟩ := List.cons.inj hrun
            exact Or.inr ⟨before, behind, rfl, hcall⟩

/-- **Runs of calls**: each remote call carries its own headers if and only if each call that
reaches its method overwrites what the calls before it have left, and has no null header. -/
theorem carriesOwn_iff (run : List Instruction) (ctx : RpcContext) :
    inv.CarriesOwn h arrays run ctx ↔
      ∀ before i behind, run = before ++ i :: behind → inv.Reaches h arrays i →
        ∀ own, ownHeaders i = some own →
          (∀ k ∈ (inv.contextAfter h arrays before ctx).attachments, k ∈ own) ∧
            ∀ k, own.lookup k ≠ some none := by
  constructor
  · intro hcarries before i behind hrun hreaches own hown
    rcases inv.invoke_cases h arrays i (inv.contextAfter h arrays before ctx) with
      ⟨hnone, -⟩ | ⟨own', hown', ⟨hfails, -⟩ | ⟨-, ⟨target, hcall⟩, -⟩⟩
    · rw [hown] at hnone
      cases hnone
    · exact absurd hreaches hfails
    · obtain rfl : own = own' := Option.some.inj (hown.symm.trans hown')
      obtain ⟨own'', hown'', hsame⟩ := hcarries (i, target, attach own _)
        ((inv.mem_calls_iff h arrays).mpr ⟨before, behind, hrun, hcall⟩)
      obtain rfl : own = own'' := Option.some.inj (hown.symm.trans hown'')
      exact (attach_eq_own_iff own _).mp hsame
  · rintro hclean ⟨i, c⟩ hc
    obtain ⟨before, behind, hrun, hcall⟩ := (inv.mem_calls_iff h arrays).mp hc
    rcases inv.invoke_cases h arrays i (inv.contextAfter h arrays before ctx) with
      ⟨-, hinvoke⟩ | ⟨own, hown, ⟨-, hnocall, -⟩ | ⟨hreaches, ⟨target, hmade⟩, -⟩⟩
    · rw [hinvoke] at hcall
      cases hcall
    · rw [hnocall] at hcall
      cases hcall
    · obtain rfl : (target, attach own _) = c := Option.some.inj (hmade.symm.trans hcall)
      exact ⟨own, hown, (attach_eq_own_iff own _).mpr (hclean before i behind hrun hreaches own hown)⟩

/-- Nothing is left if each call with headers reaches its method. -/
theorem attachments_contextAfter {run : List Instruction}
    (hrun : ∀ i ∈ run, ∀ own, ownHeaders i = some own → own.entries ≠ [] → inv.Reaches h arrays i) :
    ∀ {ctx : RpcContext}, ctx.attachments = ∅ → (inv.contextAfter h arrays run ctx).attachments = ∅ := by
  induction run with
  | nil => exact fun hctx => hctx
  | cons i is ih =>
      obtain ⟨hi, his⟩ := List.forall_mem_cons.mp hrun
      intro ctx hctx
      refine ih his ?_
      show (inv.invoke h arrays i ctx).context.attachments = ∅
      rcases inv.invoke_cases h arrays i ctx with
        ⟨-, hinvoke⟩ | ⟨own, hown, ⟨hfails, -, hleft⟩ | ⟨-, -, hcleared⟩⟩
      · rw [hinvoke]
        exact hctx
      · have hempty : own.entries = [] := by
          by_contra hne
          exact hfails (hi own hown hne)
        rw [hleft, hctx]
        unfold attach
        rw [hempty]
        rfl
      · exact hcleared

/-- Then every remote call carries the headers of its own node, as far as they are not null. -/
theorem carriesOwn_of_reaches {run : List Instruction}
    (hrun : ∀ i ∈ run, ∀ own, ownHeaders i = some own →
      (own.entries ≠ [] → inv.Reaches h arrays i) ∧ ∀ k, own.lookup k ≠ some none) :
    inv.CarriesOwn h arrays run {} := by
  rw [carriesOwn_iff]
  rintro before i behind rfl - own hown
  have hbefore : (inv.contextAfter h arrays before {}).attachments = ∅ :=
    inv.attachments_contextAfter h arrays
      (fun j hj own hown => (hrun j (List.mem_append_left _ hj) own hown).1) rfl
  refine ⟨fun k hk => ?_, (hrun i (List.mem_append_right _ List.mem_cons_self) own hown).2⟩
  rw [hbefore] at hk
  exact absurd hk (AList.notMem_empty k)

/-! ### A header that is left -/

/-- A service with one method, whose parameter is a text. -/
def echoInvoker : DubboRemoteInvoker where
  jackson :=
    { readList := fun _ => .ok []
      writeValueAsString := fun _ => ""
      readValue := fun s _ => .ok (.string s) }
  fieldToClass := [("gen_dubboecho_b", [⟨"echo", [.instruction, .string]⟩])]
  fields := [("gen_dubboecho_b", true)]
  remote := fun _ _ => (.ok .null, ∅)

def dubboCall (call : String) (headers : Headers) : Instruction :=
  { Instruction.new Host.bare with trace := some [{ call := some call, headers := some headers }] }

/-- The path of the first call is too short.  The second call has no headers, and carries those of
the first. -/
theorem calls_leak :
    (echoInvoker.calls Host.bare noArrays [dubboCall "b/echo" (AList.singleton "color" (some "red")),
      dubboCall "b/echo/echo/x" ∅] {}).map (fun c => c.2.2) = [AList.singleton "color" (some "red")] ∧
    ¬ ∀ run : List Instruction, echoInvoker.CarriesOwn Host.bare noArrays run {} := by
  have hcalls : echoInvoker.calls Host.bare noArrays
      [dubboCall "b/echo" (AList.singleton "color" (some "red")), dubboCall "b/echo/echo/x" ∅] {} =
      [(dubboCall "b/echo/echo/x" ∅, ⟨"gen_dubboecho_b", ⟨"echo", [.instruction, .string]⟩,
        [.instruction, .string "x"]⟩, AList.singleton "color" (some "red"))] := by rfl
  refine ⟨by rw [hcalls]; rfl, fun hclaim => ?_⟩
  have hcarries := hclaim [dubboCall "b/echo" (AList.singleton "color" (some "red")),
    dubboCall "b/echo/echo/x" ∅]
  unfold CarriesOwn at hcarries
  rw [hcalls] at hcarries
  obtain ⟨own, hown, hsame⟩ := hcarries _ List.mem_cons_self
  obtain rfl : ∅ = own := Option.some.inj hown
  cases hsame "color"

end DubboRemoteInvoker

end Powerful
