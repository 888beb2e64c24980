import Cyclewise.Net.Wiring

/-!
# Resolving a design into nets

`resolve` checks that connections and blocks name declared signals, splits the signals into nets,
refuses nets with more than one driver, on request refuses undriven outputs of the top component,
and lifts the dependencies between signals to dependencies between nets.
-/

namespace Cyclewise

/-- Why a design has no nets. -/
inductive NetError where
  /-- A connection or a block names a signal that is not declared. -/
  | unknownSignal (signal : SignalId)
  /-- Some nets have more than one driver; all of them, ascending. -/
  | multipleDrivers (conflicts : List DriverConflict)
  /-- Some outputs of the top component have no driver; all of them, ascending, with their paths. -/
  | undrivenOutput (outputs : List (SignalId × String))
deriving DecidableEq

namespace NetError

/-- The wording of a refusal. -/
def message : NetError → String
  | unknownSignal signal => s!"unknown signal {signal}"
  | multipleDrivers conflicts =>
    String.join ("multiple drivers" :: conflicts.map fun c => s!"\n  {c.message}")
  | undrivenOutput outputs =>
    String.join ("undriven top-level outputs:" :: outputs.map fun (_, path) => s!" {path}")

end NetError

/-- How strictly drivers are checked. -/
structure ResolveOptions where
  /-- Refuse outputs of `top` that nothing drives. -/
  denyUndriven : Bool
  top : ComponentId

namespace Wiring

variable (w : Wiring)

/-- The outputs of `top` none of whose related nets has a driver. -/
def undrivenOutputs (top : ComponentId) : List (SignalId × String) :=
  (w.signals.toList.filter fun (s, d) =>
    d.kind = .outPort && d.owner = top &&
      match w.partition.net? s with
      | some n => (w.related n).all fun m => (w.driver? m).isNone
      | none => true).map fun (s, d) => (s, d.path)

end Wiring

namespace Partition

/-- Lift the sites of a pair of signals to their nets, unless these are one net. -/
def liftSites (p : Partition) (edges : OrderedMap (NetId × NetId) (List DepSite))
    (dep : (SignalId × SignalId) × List DepSite) : OrderedMap (NetId × NetId) (List DepSite) :=
  match p.net? dep.1.1, p.net? dep.1.2 with
  | some source, some target =>
    if source = target then edges
    else
      edges.modify (source, target) [] fun known =>
        dep.2.foldl (fun known site => if site ∈ known then known else known ++ [site]) known
  | _, _ => edges

/-- The dependencies between different nets, in discovery order. -/
def netEdges (p : Partition) (deps : OrderedMap (SignalId × SignalId) (List DepSite)) :
    List NetEdge :=
  (deps.entries.foldl p.liftSites ∅).entries.map fun ((source, target), sites) =>
    ⟨source, target, sites⟩

end Partition

/-- The signals that connections and blocks name, in the order in which they are checked. -/
def mentionedSignals (connections : List Connection) (x : Extraction) : List SignalId :=
  connections.flatMap (fun c => [c.a, c.b]) ++
    x.blocks.flatMap fun (_, access) => access.reads.toList ++ access.writes.toList

/-- The nets of a design. -/
def resolve (signals : SignalTable) (connections : List Connection) (x : Extraction)
    (options : ResolveOptions) : Except NetError NetMap :=
  match (mentionedSignals connections x).find? fun s => !signals.contains s with
  | some s => .error (.unknownSignal s)
  | none =>
    let w : Wiring := ⟨signals, Partition.ofConnections signals.size connections, x.blocks⟩
    let conflicts := w.conflicts x.name
    if !conflicts.isEmpty then .error (.multipleDrivers conflicts)
    else
      let outputs := if options.denyUndriven then w.undrivenOutputs options.top else []
      if !outputs.isEmpty then .error (.undrivenOutput outputs)
      else
        let blockNets := w.blockNets w.relatedTable
        .ok
          { netOf := w.partition.netOf
            nets := (w.partition.ids.map (w.net blockNets)).toArray
            blocks := OrderedMap.ofList blockNets
            edges := w.partition.netEdges x.deps }

end Cyclewise
