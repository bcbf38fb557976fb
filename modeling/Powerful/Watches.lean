import Mathlib
import Powerful.DependentWatches

/-! # The watches of an operator

`load` reads the watch file: the kinds of custom resources that the operator looks after, each with its
chart.  The entries are checked one after the other, and the first one that fails a check decides what
the error says.  `run` adds a controller for each entry and starts them.

`load_checks` says which files are read, and what is said of the others; `run_starts` that what is
started are the controllers of the entries, no two of them for one kind. -/

namespace Powerful.Helm

open Resumption

/-! ### Environment variables -/

def isShellSpecialVar (c : Char) : Bool :=
  c ∈ ['*', '#', '$', '@', '!', '?', '-'] || c.isDigit

def isAlphaNum (c : Char) : Bool := c = '_' || c.isAlphanum

/-- The name behind a dollar sign, and how much of the text it takes. -/
def getShellName : List Char → List Char × ℕ
  | [] => ([], 0)
  | '{' :: s =>
      if s.head?.any isShellSpecialVar && s[1]? = some '}' then (s.take 1, 3)
      else match s.span (· ≠ '}') with
        | (_, []) => ([], 1)
        | ([], _ :: _) => ([], 2)
        | (name, _ :: _) => (name, name.length + 2)
  | c :: s =>
      if isShellSpecialVar c then ([c], 1)
      else
        let name := (c :: s).takeWhile isAlphaNum
        (name, name.length)

/-- `os.Expand`; the number is how much of the text belongs to a name before it. -/
def expand (mapping : String → String) : ℕ → List Char → List Char
  | _, [] => []
  | n + 1, _ :: s => expand mapping n s
  | 0, c :: s =>
      if c = '$' ∧ s ≠ [] then
        let (name, w) := getShellName s
        if name = [] ∧ 0 < w then expand mapping w s
        else if name = [] then c :: expand mapping w s
        else (mapping (String.ofList name)).toList ++ expand mapping w s
      else c :: expand mapping 0 s

def expandEnv (getenv : String → String) (s : String) : String :=
  String.ofList (expand getenv 0 s.toList)

example : expandEnv (fun name => if name = "HOME" then "/root" else "") "$HOME/${HOME}$-${}$" = "/root//root$" := by
  decide

/-! ### The file -/

structure Watch where
  groupVersionKind : GroupVersionKind
  chartDir : String
  watchDependentResources : Bool
  overrideValues : List (String × String)
  deriving DecidableEq

structure YamlWatch where
  group : String := ""
  version : String := ""
  kind : String := ""
  chart : String := ""
  watchDependentResources : Bool := false
  overrideValues : List (String × String) := []

/-- Dependent resources are watched unless the entry says something else. -/
def YamlWatch.unmarshalYAML (unmarshal : YamlWatch → Except GoError YamlWatch) (w : YamlWatch) :
    Except GoError YamlWatch := unmarshal { w with watchDependentResources := true }

def YamlWatch.gvk (w : YamlWatch) : GroupVersionKind := ⟨w.group, w.version, w.kind⟩

def GroupVersionKind.text (gvk : GroupVersionKind) : String :=
  gvk.group ++ "/" ++ gvk.version ++ ", Kind=" ++ gvk.kind

def verifyGVK (gvk : GroupVersionKind) : Except GoError Unit :=
  if gvk.version = "" then .error { message := "version must not be empty" }
  else if gvk.kind = "" then .error { message := "kind must not be empty" }
  else .ok ()

/-- What `Load` reads from.  `unmarshal` gives for each entry of the list what it does to a `YamlWatch`. -/
structure WatchFiles where
  readFile : String → Except GoError String
  unmarshal : String → Except GoError (List (YamlWatch → Except GoError YamlWatch))
  isChartDir : String → Except GoError Unit
  getenv : String → String

namespace WatchFiles
variable (f : WatchFiles)

def expandOverrideEnvs (values : List (String × String)) : List (String × String) :=
  values.map fun kv => (kv.1, expandEnv f.getenv kv.2)

def watchOf (w : YamlWatch) : Watch where
  groupVersionKind := w.gvk
  chartDir := w.chart
  watchDependentResources := w.watchDependentResources
  overrideValues := f.expandOverrideEnvs w.overrideValues

/-- `watchesMap` has the kinds so far. -/
def loadAll (watchesMap : List GroupVersionKind) (watches : List Watch) :
    List YamlWatch → Except GoError (List Watch)
  | [] => .ok watches
  | w :: yamlWatches =>
      match verifyGVK w.gvk with
      | .error e => .error (e.wrap ("invalid GVK: " ++ w.gvk.text ++ ": "))
      | .ok () => match f.isChartDir w.chart with
        | .error e => .error (e.wrap ("invalid chart directory " ++ w.chart ++ ": "))
        | .ok () =>
            if w.gvk ∈ watchesMap then .error { message := "duplicate GVK: " ++ w.gvk.text }
            else loadAll (w.gvk :: watchesMap) (watches ++ [f.watchOf w]) yamlWatches

def load (path : String) : Except GoError (List Watch) := do
  let b ← f.readFile path
  let entries ← f.unmarshal b
  let yamlWatches ← entries.mapM fun unmarshal => YamlWatch.unmarshalYAML unmarshal {}
  f.loadAll [] [] yamlWatches

/-! ### Which files are read -/

structure Valid (w : YamlWatch) : Prop where
  version : w.version ≠ ""
  kind : w.kind ≠ ""
  chart : f.isChartDir w.chart = .ok ()

/-- What is said of an entry behind others; the checks are made in this order. -/
inductive Fault (front : List YamlWatch) (w : YamlWatch) : GoError → Prop
  | version (h : w.version = "") : Fault front w
      (.wrap ("invalid GVK: " ++ w.gvk.text ++ ": ") { message := "version must not be empty" })
  | kind (hversion : w.version ≠ "") (h : w.kind = "") : Fault front w
      (.wrap ("invalid GVK: " ++ w.gvk.text ++ ": ") { message := "kind must not be empty" })
  | chart {e : GoError} (hversion : w.version ≠ "") (hkind : w.kind ≠ "")
      (h : f.isChartDir w.chart = .error e) :
      Fault front w (e.wrap ("invalid chart directory " ++ w.chart ++ ": "))
  | duplicate (hvalid : f.Valid w) (h : w.gvk ∈ front.map YamlWatch.gvk) : Fault front w
      { message := "duplicate GVK: " ++ w.gvk.text }

/-- The entries are valid, and no two of them are of one kind. -/
structure Fine (ws : List YamlWatch) : Prop where
  valid : ∀ w ∈ ws, f.Valid w
  distinct : (ws.map YamlWatch.gvk).Nodup

theorem Fine.append {front : List YamlWatch} {w : YamlWatch} (h : f.Fine front) (hvalid : f.Valid w)
    (hnew : w.gvk ∉ front.map YamlWatch.gvk) : f.Fine (front ++ [w]) where
  valid w' hw' := by
    rcases List.mem_append.mp hw' with hw' | hw'
    · exact h.valid w' hw'
    · obtain rfl := List.mem_singleton.mp hw'
      exact hvalid
  distinct := by
    rw [List.map_append, List.map_singleton]
    refine h.distinct.append (List.nodup_singleton _) fun gvk hgvk hgvk' => ?_
    obtain rfl := List.mem_singleton.mp hgvk'
    exact hnew hgvk

/-- The entries are gone through behind fine ones. -/
theorem loadAll_checks : ∀ (ws front : List YamlWatch) (watchesMap : List GroupVersionKind), f.Fine front →
    (∀ gvk, gvk ∈ watchesMap ↔ gvk ∈ front.map YamlWatch.gvk) →
    match f.loadAll watchesMap (front.map f.watchOf) ws with
    | .ok watches => f.Fine (front ++ ws) ∧ watches = (front ++ ws).map f.watchOf
    | .error e => ∃ middle w back, ws = middle ++ w :: back ∧ f.Fine (front ++ middle) ∧
        f.Fault (front ++ middle) w e
  | [], front, watchesMap, hfine, _ => by
      rw [loadAll, List.append_nil]
      exact ⟨hfine, rfl⟩
  | w :: ws, front, watchesMap, hfine, hmap => by
      have hfault : ∀ e, f.Fault front w e → ∃ middle w' back, w :: ws = middle ++ w' :: back ∧
          f.Fine (front ++ middle) ∧ f.Fault (front ++ middle) w' e := fun e h =>
        ⟨[], w, ws, rfl, by rwa [List.append_nil], by rwa [List.append_nil]⟩
      rw [loadAll]
      by_cases hversion : w.version = ""
      · rw [show verifyGVK w.gvk = .error { message := "version must not be empty" } from if_pos hversion]
        exact hfault _ (.version hversion)
      by_cases hkind : w.kind = ""
      · rw [show verifyGVK w.gvk = .error { message := "kind must not be empty" } from
          (if_neg hversion).trans (if_pos hkind)]
        exact hfault _ (.kind hversion hkind)
      rw [show verifyGVK w.gvk = .ok () from (if_neg hversion).trans (if_neg hkind)]
      cases hchart : f.isChartDir w.chart with
      | error e => exact hfault _ (.chart hversion hkind hchart)
      | ok u =>
          have hvalid : f.Valid w := ⟨hversion, hkind, hchart⟩
          by_cases hmem : w.gvk ∈ watchesMap
          · simp only [if_pos hmem]
            exact hfault _ (.duplicate hvalid ((hmap w.gvk).mp hmem))
          · simp only [if_neg hmem]
            -- the entry joins those in front
            have hnew := fun h => hmem ((hmap w.gvk).mpr h)
            have hrest := loadAll_checks ws (front ++ [w]) (w.gvk :: watchesMap)
              (Fine.append f hfine hvalid hnew) fun gvk => by
                rw [List.mem_cons, hmap, List.map_append, List.mem_append, List.map_singleton,
                  List.mem_singleton, or_comm]
            rw [List.map_append, List.map_singleton] at hrest
            simp only [List.append_assoc, List.singleton_append] at hrest
            split
            · rename_i watches hwatches
              rw [hwatches] at hrest
              exact hrest
            · rename_i e herror
              rw [herror] at hrest
              obtain ⟨middle, w', back, rfl, hfine', hfault'⟩ := hrest
              exact ⟨w :: middle, w', back, rfl, hfine', hfault'⟩

/-- A file whose entries can be read. -/
def Entries (path : String) (ws : List YamlWatch) : Prop := ∃ b entries, f.readFile path = .ok b ∧
  f.unmarshal b = .ok entries ∧ entries.mapM (fun unmarshal => YamlWatch.unmarshalYAML unmarshal {}) = .ok ws

theorem load_of_entries {path : String} {ws : List YamlWatch} (h : f.Entries path ws) :
    f.load path = f.loadAll [] [] ws := by
  obtain ⟨b, entries, hread, hunmarshal, hmap⟩ := h
  simp only [load, hread, hunmarshal, hmap, bind, Except.bind]

theorem entries_of_load {path : String} {watches : List Watch} (h : f.load path = .ok watches) :
    ∃ ws, f.Entries path ws := by
  simp only [load, bind, Except.bind] at h
  split at h
  · cases h
  · rename_i b hread
    split at h
    · cases h
    · rename_i entries hunmarshal
      split at h
      · cases h
      · rename_i ws hmap
        exact ⟨ws, b, entries, hread, hunmarshal, hmap⟩

/-- An entry with a fault is not fine. -/
theorem Fault.not_fine {front : List YamlWatch} {w : YamlWatch} {e : GoError} (h : f.Fault front w e)
    (back : List YamlWatch) : ¬ f.Fine (front ++ w :: back) := fun hfine => by
  have hvalid := hfine.valid w (List.mem_append_right front List.mem_cons_self)
  cases h with
  | version hversion => exact hvalid.version hversion
  | kind _ hkind => exact hvalid.kind hkind
  | chart _ _ hchart =>
      rw [hvalid.chart] at hchart
      cases hchart
  | duplicate _ hmem =>
      have hdistinct := hfine.distinct
      rw [List.map_append, List.map_cons, List.nodup_append] at hdistinct
      exact hdistinct.2.2 _ hmem _ List.mem_cons_self rfl

theorem Fault.unique {front : List YamlWatch} {w : YamlWatch} {e e' : GoError} (h : f.Fault front w e)
    (h' : f.Fault front w e') : e = e' := by
  cases h with
  | version hversion =>
      cases h' with
      | version => rfl
      | kind hversion' | chart hversion' => exact absurd hversion hversion'
      | duplicate hvalid => exact absurd hversion hvalid.version
  | kind hversion hkind =>
      cases h' with
      | version hversion' => exact absurd hversion' hversion
      | kind => rfl
      | chart _ hkind' => exact absurd hkind hkind'
      | duplicate hvalid => exact absurd hkind hvalid.kind
  | chart hversion hkind hchart =>
      cases h' with
      | version hversion' => exact absurd hversion' hversion
      | kind _ hkind' => exact absurd hkind' hkind
      | chart _ _ hchart' =>
          rw [hchart] at hchart'
          rw [Except.error.inj hchart']
      | duplicate hvalid =>
          rw [hvalid.chart] at hchart
          cases hchart
  | duplicate hvalid =>
      cases h' with
      | version hversion' => exact absurd hversion' hvalid.version
      | kind _ hkind' => exact absurd hkind' hvalid.kind
      | chart _ _ hchart' =>
          rw [hvalid.chart] at hchart'
          cases hchart'
      | duplicate => rfl

/-- There is one first fault. -/
theorem Fault.first {middle middle' back back' : List YamlWatch} {w w' : YamlWatch} {e e' : GoError}
    (h : middle ++ w :: back = middle' ++ w' :: back') (hfine : f.Fine middle) (hfine' : f.Fine middle')
    (hfault : f.Fault middle w e) (hfault' : f.Fault middle' w' e') : e = e' := by
  rcases List.append_eq_append_iff.mp h with ⟨rest, rfl, hrest⟩ | ⟨rest, rfl, hrest⟩
  · cases rest with
    | nil =>
        obtain ⟨rfl, -⟩ := List.cons.inj hrest
        rw [List.append_nil] at hfault'
        exact Fault.unique f hfault hfault'
    | cons x rest =>
        obtain ⟨rfl, -⟩ := List.cons.inj hrest
        exact absurd hfine' (Fault.not_fine f hfault rest)
  · cases rest with
    | nil =>
        obtain ⟨rfl, -⟩ := List.cons.inj hrest
        rw [List.append_nil] at hfault
        exact Fault.unique f hfault hfault'
    | cons x rest =>
        obtain ⟨rfl, -⟩ := List.cons.inj hrest
        exact absurd hfine (Fault.not_fine f hfault' rest)

theorem load_outcome {path : String} {ws : List YamlWatch} (h : f.Entries path ws) :
    match f.load path with
    | .ok watches => f.Fine ws ∧ watches = ws.map f.watchOf
    | .error e => ∃ middle w back, ws = middle ++ w :: back ∧ f.Fine middle ∧ f.Fault middle w e := by
  have hchecks := f.loadAll_checks ws [] [] ⟨fun _ h => absurd h List.not_mem_nil, List.nodup_nil⟩ fun _ => Iff.rfl
  rw [f.load_of_entries h]
  exact hchecks

theorem load_ok_fine {path : String} {watches : List Watch} (h : f.load path = .ok watches) :
    ∃ ws, f.Entries path ws ∧ f.Fine ws ∧ watches = ws.map f.watchOf := by
  obtain ⟨ws, hws⟩ := f.entries_of_load h
  have houtcome := f.load_outcome hws
  rw [h] at houtcome
  exact ⟨ws, hws, houtcome⟩

/-- **The checks of the watch file**: it is read exactly if its entries are valid and of different kinds,
and then gives one watch for each of them, in their order; else the error is that of the first entry
that fails a check. -/
theorem load_checks {path : String} {ws : List YamlWatch} (h : f.Entries path ws) :
    (∀ watches, f.load path = .ok watches ↔ f.Fine ws ∧ watches = ws.map f.watchOf) ∧
    ∀ e, f.load path = .error e ↔
      ∃ middle w back, ws = middle ++ w :: back ∧ f.Fine middle ∧ f.Fault middle w e := by
  have houtcome := f.load_outcome h
  cases hload : f.load path with
  | ok watches =>
      rw [hload] at houtcome
      refine ⟨fun watches' => ⟨?_, ?_⟩, fun e => iff_of_false nofun ?_⟩
      · intro heq
        obtain rfl := Except.ok.inj heq
        exact houtcome
      · rintro ⟨-, rfl⟩
        rw [houtcome.2]
      · rintro ⟨middle, w, back, rfl, -, hfault⟩
        exact Fault.not_fine f hfault back houtcome.1
  | error e =>
      rw [hload] at houtcome
      obtain ⟨middle, w, back, rfl, hfine, hfault⟩ := houtcome
      refine ⟨fun watches => iff_of_false nofun ?_, fun e' => ⟨?_, ?_⟩⟩
      · rintro ⟨hall, -⟩
        exact Fault.not_fine f hfault back hall
      · intro heq
        obtain rfl := Except.error.inj heq
        exact ⟨middle, w, back, rfl, hfine, hfault⟩
      · rintro ⟨middle', w', back', heq, hfine', hfault'⟩
        rw [Fault.first f heq hfine hfine' hfault hfault']

/-- A file with two entries of one kind, the second of which says that dependents are not watched. -/
def duplicateFile : WatchFiles where
  readFile _ := .ok ""
  unmarshal _ := .ok
    [fun w => .ok { w with group := "g", version := "v1", kind := "Demo", chart := "charts/demo" },
      fun w => .ok { w with
        group := "g", version := "v1", kind := "Demo", chart := "charts/other", watchDependentResources := false }]
  isChartDir _ := .ok ()
  getenv _ := ""

theorem load_checks_sample :
    duplicateFile.load "watches.yaml" = .error { message := "duplicate GVK: g/v1, Kind=Demo" } := by
  refine ((duplicateFile.load_checks ⟨"", _, rfl, rfl, rfl⟩).2 _).mpr
    ⟨[_], _, [], rfl, ⟨fun w hw => ?_, List.nodup_singleton _⟩,
      .duplicate ⟨by decide, by decide, rfl⟩ List.mem_cons_self⟩
  obtain rfl := List.mem_singleton.mp hw
  exact ⟨by decide, by decide, rfl⟩

end WatchFiles

/-! ### Starting the controllers -/

variable {ω : Type}

structure HelmOperatorFlags where
  watchesFile : String
  reconcilePeriod : ℤ
  maxWorkers : ℤ

/-- The namespaces that the manager is to watch: one, all if it is empty, or the ones of `newCache`. -/
structure ManagerOptions where
  namespace_ : String := ""
  newCache : Option (List String) := none
  deriving DecidableEq

structure WatchOptions where
  namespace_ : String
  gvk : GroupVersionKind
  chartDir : String
  reconcilePeriod : ℤ
  watchDependentResources : Bool
  overrideValues : List (String × String)
  maxWorkers : ℤ
  deriving DecidableEq

/-- The manager of the operator, what it is made from, and leader election. -/
structure OperatorManager (ω : Type) where
  getConfig : ω → Except GoError Unit × ω
  newManager : ManagerOptions → ω → Except GoError Unit × ω
  newController : String → ω → Except GoError Unit × ω
  watch : GroupVersionKind → ω → Except GoError Unit × ω
  getOperatorName : ω → Except GoError String × ω
  become : String → ω → Except GoError Unit × ω

/-- `controllers` are those that are registered, `watched` the kinds whose resources they are told of and
`hooks` the kinds whose controllers watch dependent resources. -/
structure RunState (ω : Type) where
  controllers : List WatchOptions := []
  watched : List GroupVersionKind := []
  hooks : List GroupVersionKind := []
  running : Bool := false
  world : ω

abbrev Setup (ω α : Type) := Prog (RunState ω) GoError α

def perform {α : Type} (f : ω → Except GoError α × ω) (done : RunState ω → RunState ω) : Setup ω α :=
  .atomic fun s => match f s.world with
    | (.ok a, w) => (.ok a, { done s with world := w })
    | (.error e, w) => (.error e, { s with world := w })

namespace OperatorManager
variable (m : OperatorManager ω) (f : WatchFiles) (flags : HelmOperatorFlags)
  (watchNamespace : Option String)

def add (options : WatchOptions) : Setup ω Unit := do
  perform (m.newController (options.gvk.kind.toLower ++ "-controller"))
    fun s => { s with controllers := s.controllers ++ [options] }
  perform (m.watch options.gvk) fun s => { s with watched := s.watched ++ [options.gvk] }
  if options.watchDependentResources then
    .modify fun s => { s with hooks := s.hooks ++ [options.gvk] }
  else pure ()

/-- `watchNamespace` is the environment variable WATCH_NAMESPACE, if it is set. -/
def managerOptions : ManagerOptions :=
  match watchNamespace with
  | none => {}
  | some ns =>
      if ns = "" then {}
      else if ',' ∈ ns.toList then { newCache := some (ns.splitOn ",") }
      else { namespace_ := ns }

def optionsOf (w : Watch) : WatchOptions where
  namespace_ := watchNamespace.getD ""
  gvk := w.groupVersionKind
  chartDir := w.chartDir
  reconcilePeriod := flags.reconcilePeriod
  watchDependentResources := w.watchDependentResources
  overrideValues := w.overrideValues
  maxWorkers := flags.maxWorkers

def addAll : List Watch → Setup ω Unit
  | [] => pure ()
  | w :: watches => do
      m.add (optionsOf flags watchNamespace w)
      addAll watches

def run : Setup ω Unit := do
  perform m.getConfig id
  perform (m.newManager (managerOptions watchNamespace)) id
  let watches ← .ofExcept (f.load flags.watchesFile)
  m.addAll flags watchNamespace watches
  let operatorName ← perform m.getOperatorName id
  perform (m.become (operatorName ++ "-lock")) id
  .modify fun s => { s with running := true }

end OperatorManager

/-- The controllers of the first watches, and nothing is started. -/
structure Registered (flags : HelmOperatorFlags) (watchNamespace : Option String) (watches : List Watch)
    (s : RunState ω) : Prop where
  controllers : s.controllers = watches.map (OperatorManager.optionsOf flags watchNamespace)
  watched : s.watched = watches.map Watch.groupVersionKind
  hooks : s.hooks = (watches.filter fun w => w.watchDependentResources).map Watch.groupVersionKind

namespace OperatorManager
open Prog
variable (m : OperatorManager ω) (f : WatchFiles) (flags : HelmOperatorFlags)
  (watchNamespace : Option String)

/-- Nothing runs, and of a result `K` holds. -/
def Idle {α : Type} (K : α → RunState ω → Prop) (o : Except GoError α) (s : RunState ω) : Prop :=
  s.running = false ∧ ∀ a, o = .ok a → K a s

theorem Ensures.idleBind {α β : Type} {I : RunState ω → Prop} {K : β → RunState ω → Prop}
    {K' : α → RunState ω → Prop} {p : Setup ω β} {g : β → Setup ω α} (hp : Ensures I (Idle K) p)
    (hg : ∀ b, Ensures (fun s => s.running = false ∧ K b s) (Idle K') (g b)) :
    Ensures I (Idle K') (p >>= g) :=
  Ensures.bind hp (fun b => Ensures.weaken (hg b) fun _ hs => ⟨hs.1, hs.2 b rfl⟩)
    fun _ _ hs => ⟨hs.1, nofun⟩

theorem perform_ensures {α : Type} {J K : RunState ω → Prop} {g : ω → Except GoError α × ω}
    {done : RunState ω → RunState ω} (hdone : ∀ s, (done s).running = s.running)
    (h : ∀ s w, J s → K { done s with world := w }) :
    Ensures (fun s => s.running = false ∧ J s) (Idle fun _ => K) (perform g done) := by
  refine Ensures.atomic fun s hs => ?_
  rcases g s.world with ⟨outcome, w⟩
  cases outcome with
  | ok a => exact ⟨(hdone s).trans hs.1, fun _ _ => h s w hs.2⟩
  | error e => exact ⟨hs.1, nofun⟩

variable {flags watchNamespace}

theorem add_ensures (watches : List Watch) (w : Watch) :
    Ensures (fun s => s.running = false ∧ Registered flags watchNamespace watches s)
      (Idle fun _ => Registered flags watchNamespace (watches ++ [w])) (m.add (optionsOf flags watchNamespace w)) := by
  refine Ensures.idleBind (K := fun _ s => s.controllers = (watches ++ [w]).map (optionsOf flags watchNamespace) ∧
    s.watched = watches.map Watch.groupVersionKind ∧
    s.hooks = (watches.filter fun w => w.watchDependentResources).map Watch.groupVersionKind)
    (perform_ensures (fun _ => rfl) fun s _ hs => ⟨?_, hs.watched, hs.hooks⟩) fun _ => ?_
  · rw [List.map_append, List.map_singleton, ← hs.controllers]
  refine Ensures.idleBind (K := fun _ s => s.controllers = (watches ++ [w]).map (optionsOf flags watchNamespace) ∧
    s.watched = (watches ++ [w]).map Watch.groupVersionKind ∧
    s.hooks = (watches.filter fun w => w.watchDependentResources).map Watch.groupVersionKind)
    (perform_ensures (fun _ => rfl) fun s _ hs => ⟨hs.1, ?_, hs.2.2⟩) fun _ => ?_
  · rw [List.map_append, List.map_singleton, ← hs.2.1]
    rfl
  split
  · rename_i hdependent
    refine Ensures.modify fun s ⟨hidle, hcontrollers, hwatched, hhooks⟩ =>
      ⟨hidle, fun _ _ => ⟨hcontrollers, hwatched, ?_⟩⟩
    have hfilter : [w].filter (fun w => w.watchDependentResources) = [w] :=
      List.filter_cons_of_pos hdependent
    rw [List.filter_append, hfilter, List.map_append, List.map_singleton, ← hhooks]
    rfl
  · rename_i hdependent
    refine Ensures.pure fun s ⟨hidle, hcontrollers, hwatched, hhooks⟩ =>
      ⟨hidle, fun _ _ => ⟨hcontrollers, hwatched, ?_⟩⟩
    have hfilter : [w].filter (fun w => w.watchDependentResources) = [] :=
      List.filter_cons_of_neg hdependent
    rw [List.filter_append, hfilter, List.append_nil]
    exact hhooks

theorem addAll_ensures : ∀ watches front : List Watch,
    Ensures (fun s => s.running = false ∧ Registered flags watchNamespace front s)
      (Idle fun _ => Registered flags watchNamespace (front ++ watches)) (m.addAll flags watchNamespace watches)
  | [], front => by
      rw [List.append_nil]
      exact Ensures.pure fun s hs => ⟨hs.1, fun _ _ => hs.2⟩
  | w :: watches, front => by
      have hrest := addAll_ensures watches (front ++ [w])
      rw [List.append_assoc, List.singleton_append] at hrest
      exact Ensures.idleBind (m.add_ensures front w) fun _ => hrest

theorem only_ensures {α : Type} (watches : List Watch) (g : ω → Except GoError α × ω) :
    Ensures (fun s => s.running = false ∧ Registered flags watchNamespace watches s)
      (Idle fun _ => Registered flags watchNamespace watches) (perform g id) :=
  perform_ensures (fun _ => rfl) fun _ _ hs => ⟨hs.controllers, hs.watched, hs.hooks⟩

/-- What runs is what the watch file says. -/
structure Running (flags : HelmOperatorFlags) (watchNamespace : Option String) (s : RunState ω) : Prop where
  loaded : ∃ ws, f.Entries flags.watchesFile ws ∧ f.Fine ws ∧ Registered flags watchNamespace (ws.map f.watchOf) s
  distinct : (s.controllers.map WatchOptions.gvk).Nodup

/-- **Starting the operator**: if the controllers are started the watch file has been read, there is one
for each of its entries, in their order and told of the resources of its kind, and no two are of one
kind. -/
theorem run_starts (flags : HelmOperatorFlags) (watchNamespace : Option String) (w : ω)
    (hrunning : ((m.run f flags watchNamespace).run { world := w }).2.running = true) :
    Running f flags watchNamespace ((m.run f flags watchNamespace).run { world := w }).2 := by
  have hfirst : Ensures (fun s => s.running = false ∧ Registered flags watchNamespace [] s)
      (fun _ s => s.running = true → Running f flags watchNamespace s) (m.run f flags watchNamespace) := by
    have hstop : ∀ {α : Type} {K : α → RunState ω → Prop} {e : GoError} {s : RunState ω},
        Idle K (.error e) s → s.running = true → Running f flags watchNamespace s := fun hs hrunning => by
      rw [hs.1] at hrunning
      cases hrunning
    refine Ensures.bind (only_ensures [] m.getConfig) (fun _ => ?_) fun _ _ => hstop
    refine Ensures.bind (Ensures.weaken (only_ensures [] (m.newManager (managerOptions watchNamespace)))
      fun s hs => ⟨hs.1, hs.2 _ rfl⟩) (fun _ => ?_) fun _ _ => hstop
    refine Ensures.weaken (I := fun s => s.running = false ∧ Registered flags watchNamespace [] s) ?_
      fun s hs => ⟨hs.1, hs.2 _ rfl⟩
    refine Ensures.bind (T := Idle fun watches s => f.load flags.watchesFile = .ok watches ∧ Registered flags watchNamespace [] s)
      (Ensures.ofExcept fun s hs => ⟨hs.1, fun _ hwatches => ⟨hwatches, hs.2⟩⟩) (fun watches => ?_) fun _ _ => hstop
    refine Ensures.weaken (I := fun s => f.load flags.watchesFile = .ok watches ∧ s.running = false ∧ Registered flags watchNamespace [] s) ?_
      fun s hs => ⟨(hs.2 watches rfl).1, hs.1, (hs.2 watches rfl).2⟩
    refine Ensures.given fun hload => ?_
    refine Ensures.bind (m.addAll_ensures watches []) (fun _ => ?_) fun _ _ => hstop
    refine Ensures.bind (Ensures.weaken (only_ensures watches m.getOperatorName)
      fun s hs => ⟨hs.1, hs.2 _ rfl⟩) (fun operatorName => ?_) fun _ _ => hstop
    refine Ensures.bind (Ensures.weaken (only_ensures watches (m.become (operatorName ++ "-lock")))
      fun s hs => ⟨hs.1, hs.2 operatorName rfl⟩) (fun _ => ?_) fun _ _ => hstop
    refine Ensures.modify fun s hs _ => ?_
    obtain ⟨ws, hentries, hfine, rfl⟩ := f.load_ok_fine hload
    obtain ⟨hcontrollers, hwatched, hhooks⟩ := hs.2 _ rfl
    refine ⟨⟨ws, hentries, hfine, hcontrollers, hwatched, hhooks⟩, ?_⟩
    have hgvks : ((ws.map f.watchOf).map (optionsOf flags watchNamespace)).map WatchOptions.gvk = ws.map YamlWatch.gvk := by
      rw [List.map_map, List.map_map]
      rfl
    show (s.controllers.map WatchOptions.gvk).Nodup
    rw [hcontrollers, hgvks]
    exact hfine.distinct
  exact hfirst { world := w } ⟨rfl, rfl, rfl, rfl⟩ hrunning

/-- A file with one entry, which says nothing about dependents. -/
def demoFile : WatchFiles where
  readFile _ := .ok ""
  unmarshal _ := .ok
    [fun w => .ok { w with
      group := "g", version := "v1", kind := "Demo", chart := "charts/demo", overrideValues := [("tag", "$TAG")] }]
  isChartDir _ := .ok ()
  getenv name := if name = "TAG" then "v2" else ""

def quickManager : OperatorManager Unit where
  getConfig w := (.ok (), w)
  newManager _ w := (.ok (), w)
  newController _ w := (.ok (), w)
  watch _ w := (.ok (), w)
  getOperatorName w := (.ok "demo", w)
  become _ w := (.ok (), w)

def flagsSample : HelmOperatorFlags :=
  { watchesFile := "watches.yaml", reconcilePeriod := 60, maxWorkers := 1 }

example : ((quickManager.run demoFile flagsSample none).run { world := () }).2.controllers =
    [⟨"", ⟨"g", "v1", "Demo"⟩, "charts/demo", 60, true, [("tag", "v2")], 1⟩] := by decide

theorem run_starts_sample : Running demoFile flagsSample none
    ((quickManager.run demoFile flagsSample none).run { world := () }).2 :=
  quickManager.run_starts demoFile flagsSample none () (by decide)

end OperatorManager

end Powerful.Helm
