import EBTree.Engine.VersionChain

/-!
# Chains that spill

`VersionChainStore` and its `VcsPager` as they divide a chain between them (`version_chain_store.cc`,
`vcs_pager.cc`): the last `kVcsInlineMax` nodes are kept inline, the older ones go to the pager. The
sidecar files come in `ChainFile`.
-/

set_option autoImplicit false

namespace EBTree.Engine

open Lib

def kVcsInlineMax : Nat := 8

/-- `VcsPager`: `overflow_nodes_`. -/
structure VcsPager where
  overflowNodes : SortedMap Key (List VersionNode)

namespace VcsPager

def empty : VcsPager := ⟨SortedMap.empty⟩

/-- `LoadOverflow`, of the nodes that are in memory. -/
def loadOverflow (p : VcsPager) (key : Key) : List VersionNode := (p.overflowNodes.find? key).getD []

/-- `AppendOverflow`. -/
def appendOverflow (p : VcsPager) (key : Key) (node : VersionNode) : VcsPager × Except Status Unit :=
  if key = [] then (p, .error (Status.invalidArgument "empty key"))
  else
    let nodes := p.loadOverflow key
    if nodes ≠ [] ∧ node.lsn ≤ VersionChainStore.lastLsn nodes then
      (⟨p.overflowNodes.insert key nodes⟩, .error (Status.invalidArgument "lsn must increase"))
    else (⟨p.overflowNodes.insert key (nodes ++ [node])⟩, .ok ())

end VcsPager

structure SpillingChainStore where
  /-- The nodes kept inline. -/
  chains : SortedMap Key (List VersionNode)
  pager : Option VcsPager

namespace SpillingChainStore

def inlineNodes (v : SpillingChainStore) (key : Key) : List VersionNode := (v.chains.find? key).getD []

def overflow (v : SpillingChainStore) (key : Key) : List VersionNode :=
  match v.pager with
  | some p => p.loadOverflow key
  | none => []

/-- `MergedChain`. -/
def mergedChain (v : SpillingChainStore) (key : Key) : List VersionNode :=
  v.overflow key ++ v.inlineNodes key

/-- The loop of `MaybeSpill`, out at the first node the pager refuses. -/
def spill (p : VcsPager) (key : Key) : List VersionNode → VcsPager × List VersionNode
  | [] => (p, [])
  | node :: nodes =>
    if kVcsInlineMax < (node :: nodes).length then
      match p.appendOverflow key node with
      | (p, .ok ()) => spill p key nodes
      | (p, .error _) => (p, nodes)
    else (p, node :: nodes)

/-- `MaybeSpill`. -/
def maybeSpill (v : SpillingChainStore) (key : Key) : SpillingChainStore :=
  match v.pager with
  | none => v
  | some p =>
    let (p, nodes) := spill p key (v.inlineNodes key)
    ⟨v.chains.insert key nodes, some p⟩

/-- `Append`. -/
def append (v : SpillingChainStore) (key : Key) (lsn prevLsn : Nat) :
    SpillingChainStore × Except Status Unit :=
  if key = [] then (v, .error (Status.invalidArgument "empty key"))
  else if lsn = 0 then (v, .error (Status.invalidArgument "lsn must be > 0"))
  else
    let nodes := v.inlineNodes key
    let v := { v with chains := v.chains.insert key nodes }
    if nodes ≠ [] ∧ lsn ≤ VersionChainStore.lastLsn nodes then
      (v, .error (Status.invalidArgument "lsn must increase"))
    else if v.overflow key ≠ [] ∧ lsn ≤ VersionChainStore.lastLsn (v.overflow key) then
      (v, .error (Status.invalidArgument "lsn must increase"))
    else
      ({ v with
        chains := v.chains.insert key (nodes ++ [VersionNode.mk lsn prevLsn]) }.maybeSpill key,
        .ok ())

/-- `Floor`. -/
def floor (v : SpillingChainStore) (key : Key) (snapshotLsn : Nat) : Nat :=
  VersionChainStore.floorOf (v.mergedChain key) snapshotLsn

/-- `Head`. -/
def head (v : SpillingChainStore) (key : Key) : Nat :=
  if v.inlineNodes key ≠ [] then VersionChainStore.lastLsn (v.inlineNodes key)
  else VersionChainStore.lastLsn (v.overflow key)

/-- `Clear`. -/
def clear (v : SpillingChainStore) : SpillingChainStore :=
  ⟨SortedMap.empty, v.pager.map fun _ => VcsPager.empty⟩

/-- The kept nodes of a key, put back up to the first that is refused. -/
def appendAll (v : SpillingChainStore) (key : Key) : Nat → List VersionNode → SpillingChainStore
  | _, [] => v
  | prev, n :: ns =>
    match v.append key n.lsn prev with
    | (v, .error _) => v
    | (v, .ok _) => v.appendAll key n.lsn ns

/-- `CompactBelow`. -/
def compactBelow (v : SpillingChainStore) (lsn : Nat) : SpillingChainStore :=
  if lsn = 0 then v
  else v.chains.entries.foldl
    (fun v' c => v'.appendAll c.1 0 (VersionChainStore.compacted (v.mergedChain c.1) lsn)) v.clear

/-! ## Runs -/

inductive Op
  | append (key : Key) (lsn prevLsn : Nat)
  | compactBelow (lsn : Nat)

def step (v : SpillingChainStore) : Op → SpillingChainStore
  | .append key lsn prevLsn => (v.append key lsn prevLsn).1
  | .compactBelow lsn => v.compactBelow lsn

/-- What was asked of the store so far: the LSNs it accepted for each key, and the bounds it was
compacted to, the last one first. -/
structure Asked where
  appended : Key → List Nat
  bounds : List Nat

def Asked.after (a : Asked) (v : SpillingChainStore) : Op → Asked
  | .append key lsn prevLsn =>
    match (v.append key lsn prevLsn).2 with
    | .ok () => { a with appended := Function.update a.appended key (a.appended key ++ [lsn]) }
    | .error _ => a
  | .compactBelow lsn => { a with bounds := lsn :: a.bounds }

/-- The states reached from an empty store, with or without a pager. -/
inductive Run : SpillingChainStore → Asked → Prop
  | empty (pager : Option VcsPager) (h : ∀ p, pager = some p → p = VcsPager.empty) :
      Run ⟨SortedMap.empty, pager⟩ ⟨fun _ => [], []⟩
  | step {v : SpillingChainStore} {a : Asked} (op : Op) : Run v a → Run (v.step op) (a.after v op)

/-- A store with a pager after some operations. -/
def runOps (ops : List Op) : SpillingChainStore × Asked :=
  ops.foldl (fun x op => (x.1.step op, x.2.after x.1 op))
    (⟨SortedMap.empty, some VcsPager.empty⟩, ⟨fun _ => [], []⟩)

end SpillingChainStore
end EBTree.Engine
