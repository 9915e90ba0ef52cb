import Leviathan.Lib.RaisingWalk
import Leviathan.Trident.SemVer

/-!
# Minimal version selection

The resolver of `mvs.cpp`.  `selectLoop` is the worklist: it takes requirements
from the front of the queue, keeps one entry for each module, and fetches a
module's manifest when the module is new or its minimum rises; the manifest's
requirements replace the recorded ones and go to the back of the queue.  When
the queue is empty `findRequireCycle` walks the recorded graph, and a cycle is
an error.

The provider is a fixed function from a module and a version to a manifest or
an error.  The calls of `manifestOf` are the walk's only effect on the outside
world, so a `Selection` also records them, in order.

`selectLoop_ok` and `selectLoop_error` connect the code to the raising worklist
of `RaisingWalk`: a run of the loop is a run of the abstract walk, and a run that
fails stops at a state the abstract walk reaches.
-/

namespace Leviathan.Trident

/-- `struct ModuleProvider`, as far as selection uses it. -/
structure ModuleProvider where
  manifestOf : ModuleId → Version → Except Str ProjectManifest

/-- The major that identifies a module: majors 0 and 1 share one identity. -/
def identityMajor (v : Version) : Int32 := if v.major ≤ 1 then 1 else v.major

/-- `dependencyToRequire`. -/
def dependencyToRequire (d : Dependency) : Except Str Require :=
  match parseSemVer d.version with
  | .error err => .error ("dependency '".toList ++ d.path ++ "': ".toList ++ err)
  | .ok v => .ok { mod := ⟨d.path, identityMajor v⟩, min := v, as_ := d.as_, dev := d.dev }

/-- `expandRequires`: the first bad dependency fails the whole manifest. -/
def expandRequires (pm : ProjectManifest) : Except Str (List Require) :=
  pm.deps.mapM dependencyToRequire

/-- `renderSelected`. -/
def renderSelected (entry : BuildListEntry) : Str :=
  entry.mod.path ++ "@".toList ++ formatSemVer entry.selected

/-- The colours of the depth-first search. -/
inductive Color where
  | White
  | Gray
  | Black
deriving DecidableEq, Repr

/-- The search state of `findRequireCycle`.  A frame is an entry index with its
next edge; the top of the stack comes first. -/
structure CycleSearch where
  color : List Color
  path : List Nat := []
  pathPosition : List Nat
  stack : List (Nat × Nat) := []

/-- Turn an entry gray and push its frame. -/
def CycleSearch.enter (s : CycleSearch) (i : Nat) : CycleSearch :=
  { color := s.color.set i .Gray
    path := s.path ++ [i]
    pathPosition := s.pathPosition.set i s.path.length
    stack := (i, 0) :: s.stack }

/-- The chain of the active path from `target` on, closed by `target` again. -/
def renderCycle (entries : List BuildListEntry) (s : CycleSearch) (target : Nat) : Str :=
  let chain := s.path.drop (s.pathPosition.getD target entries.length)
  ((chain ++ [target]).map (fun i => (entries[i]?.map renderSelected).getD [])).intersperse
    " -> ".toList |>.flatten

/-- One round of the inner `while`: finish the top frame or look at its next
edge.  A gray target is a cycle, reported as an error. -/
def CycleSearch.round (entries : List BuildListEntry) (s : CycleSearch) :
    Except Str CycleSearch :=
  match s.stack with
  | [] => .ok s
  | (i, nextEdge) :: stack =>
    match ((entries[i]?.map (·.requires_)).getD [])[nextEdge]? with
    | none =>
      .ok { color := s.color.set i .Black
            path := s.path.dropLast
            pathPosition := s.pathPosition.set i entries.length
            stack := stack }
    | some edge =>
      let s := { s with stack := (i, nextEdge + 1) :: stack }
      -- a dangling edge is a leaf
      match entries.findIdx? (fun e => e.mod = edge.mod) with
      | none => .ok s
      | some target =>
        match s.color.getD target .Black with
        | .White => .ok (s.enter target)
        | .Gray => .error (renderCycle entries s target)
        | .Black => .ok s

/-- The inner `while`, which makes at most `fuel` rounds. -/
def CycleSearch.drain (entries : List BuildListEntry) : Nat → CycleSearch → Except Str CycleSearch
  | 0, s => .ok s
  | fuel + 1, s =>
    if s.stack.isEmpty then .ok s
    else match s.round entries with
      | .error cycle => .error cycle
      | .ok s => drain entries fuel s

/-- One round for every entry that is finished and every edge that is looked at. -/
def cycleRounds (entries : List BuildListEntry) : Nat :=
  (entries.map (fun e => e.requires_.length + 1)).sum

/-- `findRequireCycle`: the empty string when the recorded graph is acyclic. -/
def findRequireCycle (entries : List BuildListEntry) : Str :=
  let init : CycleSearch :=
    { color := List.replicate entries.length .White
      pathPosition := List.replicate entries.length entries.length }
  let visit (s : CycleSearch) (start : Nat) : Except Str CycleSearch :=
    if s.color.getD start .Black = .White then (s.enter start).drain entries (cycleRounds entries)
    else .ok s
  match (List.range entries.length).foldlM visit init with
  | .ok _ => []
  | .error cycle => cycle

/-- Read one module's manifest at one version and expand it into requirements. -/
def fetchRequires (provider : ModuleProvider) (mod : ModuleId) (selected : Version) :
    Except Str (List Require) :=
  match provider.manifestOf mod selected with
  | .error err =>
    .error ("cannot resolve ".toList ++ mod.path ++ "@".toList ++ formatSemVer selected ++
      ": ".toList ++ err)
  | .ok pm =>
    match expandRequires pm with
    | .error err =>
      .error ("dependency '".toList ++ mod.path ++ "@".toList ++ formatSemVer selected ++
        "': ".toList ++ err)
    | .ok subs => .ok subs

/-- The state of the selection loop beside its queue: the entries of the
`std::map`, and the manifests asked of the provider so far, in order. -/
structure Selection where
  entries : Std.TreeMap ModuleId BuildListEntry := {}
  fetched : List (ModuleId × Version) := []

/-- Whether a requirement names a new module or a higher minimum. -/
def Selection.needFetch (w : Selection) (r : Require) : Bool :=
  match w.entries[r.mod]? with
  | none => true
  | some e => 0 < compareSemVer r.min e.selected

/-- Create or raise the entry of `r.mod` and record its requirements. -/
def Selection.raise (w : Selection) (r : Require) (subs : List Require) : Selection :=
  let e : BuildListEntry := match w.entries[r.mod]? with
    | none => { mod := r.mod, selected := r.min }
    | some e => { e with selected := r.min }
  { entries := w.entries.insert r.mod { e with requires_ := subs }
    fetched := w.fetched ++ [(r.mod, r.min)] }

/-- `kMaxSteps`, the defensive cap of the loop. -/
def kMaxSteps : Nat := 100000

/-- The error of a walk that reached the cap. -/
def notConverged : Str :=
  "MVS did not converge (exceeded ".toList ++ Text.decimal kMaxSteps ++
    " steps) — check for a provider returning ever-increasing versions".toList

/-- The worklist loop of `selectVersions`; the first argument is what is left of
the cap. -/
def selectLoop (provider : ModuleProvider) :
    Nat → List Require → Selection → Except Str Selection
  | _, [], w => .ok w
  | 0, _ :: _, _ => .error notConverged
  | n + 1, r :: queue, w =>
    if w.needFetch r then
      match fetchRequires provider r.mod r.min with
      | .error err => .error err
      | .ok subs => selectLoop provider n (queue ++ subs) (w.raise r subs)
    else selectLoop provider n queue w

/-- The whole walk of `selectVersions` from the root requirements. -/
def selectWalk (provider : ModuleProvider) (rootRequires : List Require) : Except Str Selection :=
  selectLoop provider kMaxSteps rootRequires {}

/-- The build list of a finished walk: the entries in the order of the map. -/
def Selection.buildList (w : Selection) : List BuildListEntry := w.entries.toList.map (·.2)

/-- `selectVersions`. -/
def selectVersions (rootRequires : List Require) (provider : ModuleProvider) :
    Except Str (List BuildListEntry) :=
  match selectWalk provider rootRequires with
  | .error err => .error err
  | .ok w =>
    let cycle := findRequireCycle w.buildList
    if cycle.isEmpty then .ok w.buildList
    else .error ("require cycle detected: ".toList ++ cycle ++
      " — the external dependency graph must be acyclic; break the cycle by removing one of these modules' requires on the other".toList)

end Leviathan.Trident
