import Cyclewise.Block.Access

/-!
# The dependencies of a design

`extract` analyses a list of blocks.  It gathers the accesses of each block and, for every pair of
a read and a written signal, the statements that make the one depend on the other.  If any block
has a loop, all loops of all blocks are reported instead.
-/

namespace Cyclewise

/-- A statement of a block. -/
structure DepSite where
  block : BlockId
  span : Span
deriving DecidableEq

/-- The name and the accesses of an analysed block. -/
structure AnalyzedBlock where
  name : String
  access : BlockAccess

/-- The analysed blocks in input order, and the dependencies in discovery order. -/
structure Extraction where
  analyzed : OrderedMap BlockId AnalyzedBlock
  deps : OrderedMap (SignalId × SignalId) (List DepSite)
deriving Inhabited

/-- A loop of a named block. -/
structure LoopError where
  block : BlockId
  name : String
  site : LoopSite
deriving DecidableEq

namespace LoopError

/-- The wording of a refusal. -/
def message (e : LoopError) : String :=
  s!"update block '{e.name}' (#{e.block}) contains a {e.site.kind} at {e.site.span}; " ++
    "loops are not supported"

end LoopError

/-- The loops that keep a design from being analysed, by block and then by place in the text. -/
structure ExtractError where
  loops : List LoopError
deriving DecidableEq

namespace ExtractError

/-- The wording of a refusal: a line for each loop. -/
def message (e : ExtractError) : String :=
  String.join ("dependency extraction failed" :: e.loops.map fun l => s!"\n  {l.message}")

end ExtractError

namespace Extraction

/-- No block analysed. -/
def empty : Extraction := ⟨∅, ∅⟩

/-- The analysed blocks with their accesses, in input order. -/
def blocks (x : Extraction) : List (BlockId × BlockAccess) :=
  x.analyzed.entries.map fun (b, a) => (b, a.access)

/-- The number of analysed blocks. -/
def blockCount (x : Extraction) : Nat := x.analyzed.size

/-- The accesses of a block. -/
def access? (x : Extraction) (b : BlockId) : Option BlockAccess :=
  (x.analyzed.find? b).map AnalyzedBlock.access

/-- The name of a block; one that was not analysed has a placeholder. -/
def name (x : Extraction) (b : BlockId) : String :=
  match x.analyzed.find? b with
  | some a => a.name
  | none => "<unknown>"

/-- The statements that make `written` depend on `read`. -/
def sites (x : Extraction) (read written : SignalId) : List DepSite :=
  x.deps.findD (read, written) []

/-- Note one dependency of a block; a site is listed once for each pair. -/
def addDependency (b : BlockId) (deps : OrderedMap (SignalId × SignalId) (List DepSite))
    (d : Dependency) : OrderedMap (SignalId × SignalId) (List DepSite) :=
  deps.modify (d.read, d.written) [] fun sites =>
    if ⟨b, d.span⟩ ∈ sites then sites else sites ++ [⟨b, d.span⟩]

/-- Add an analysed block.  Under a known identifier it takes the place of the earlier block, whose
dependencies stay. -/
def add (x : Extraction) (b : BlockId) (name : String) (analysis : BlockAnalysis) : Extraction where
  analyzed := x.analyzed.insert b ⟨name, analysis.access⟩
  deps := analysis.dependencies.foldl (addDependency b) x.deps

end Extraction

variable {μ : Type}

/-- The loops of a list of blocks. -/
def loopsOf (blocks : List (BlockId × UpdateBlock μ)) : List LoopError :=
  blocks.flatMap fun (b, block) =>
    match block.analyze with
    | .ok _ => []
    | .error sites => sites.map fun site => ⟨b, block.name, site⟩

/-- The analyses of the blocks without loops, merged in input order. -/
def mergeAnalyses (blocks : List (BlockId × UpdateBlock μ)) : Extraction :=
  blocks.foldl (fun x (b, block) =>
    match block.analyze with
    | .ok analysis => x.add b block.name analysis
    | .error _ => x) Extraction.empty

/-- Analyse every block, or report all their loops. -/
def extract (blocks : List (BlockId × UpdateBlock μ)) : Except ExtractError Extraction :=
  let loops := loopsOf blocks
  if loops.isEmpty then .ok (mergeAnalyses blocks) else .error ⟨loops⟩

end Cyclewise
