import Leviathan.Lib.Text

/-!
# The build-plan writer

`plan.cpp`: a resolved project and the options of the build as the text the
compiler driver reads.  The two programs share the text and no type, so the
project has its own records here.
-/

namespace Leviathan.Trident

structure ResolvedSource where
  path : Str
  moduleId : Str
  origin : Str

structure ResolvedAsset where
  rel : Str
  path : Str
  moduleId : Str
  hash : Str

/-- A resolved project, as far as the plan has it.  `moduleDeps` is the map from a
module to the modules it may use, in the order of its keys. -/
structure ResolvedProject where
  sources : List ResolvedSource
  moduleDeps : List (Str × List Str)
  assets : List ResolvedAsset
  entryKind : Str := "script".toList
  entryTarget : Str

structure WritePlanOptions where
  out : Str
  mode : Str
  target : Str
  optLevel : Int32 := 2

open Text (quote decimal)

def writeSource (s : ResolvedSource) : Str :=
  "    src \x7b path = ".toList ++ quote s.path ++ "; moduleId = ".toList ++ quote s.moduleId ++
    "; origin = ".toList ++ quote s.origin ++ "; \x7d\n".toList

def writeEdge (from_ to_ : Str) : Str :=
  "    edge \x7b from = ".toList ++ quote from_ ++ "; to = ".toList ++ quote to_ ++
    "; \x7d\n".toList

def writeAsset (a : ResolvedAsset) : Str :=
  "    asset \x7b rel = ".toList ++ quote a.rel ++ "; path = ".toList ++ quote a.path ++
    "; moduleId = ".toList ++ quote a.moduleId ++ "; hash = ".toList ++ quote a.hash ++
    "; \x7d\n".toList

/-- `writeBuildPlan`: the text of the plan file. -/
def writeBuildPlan (rp : ResolvedProject) (opts : WritePlanOptions) : Str :=
  "plan \x7b\n".toList ++
  ("    out = ".toList ++ quote opts.out ++ ";\n".toList) ++
  ("    mode = ".toList ++ quote opts.mode ++ ";\n".toList) ++
  ("    target = ".toList ++ quote opts.target ++ ";\n".toList) ++
  ("    optLevel = ".toList ++ decimal opts.optLevel.toInt ++ ";\n".toList) ++
  ("    entry \x7b kind = ".toList ++ quote rp.entryKind ++ "; target = ".toList ++
    quote rp.entryTarget ++ "; \x7d\n".toList) ++
  rp.sources.flatMap writeSource ++
  rp.moduleDeps.flatMap (fun (from_, tos) => tos.flatMap (writeEdge from_)) ++
  rp.assets.flatMap writeAsset ++
  "\x7d\n".toList

end Leviathan.Trident
