import SvpChain.Lib.Bytes
import SvpChain.Lib.Table

/-!
# The Merkle tree engine

`TreeCalc`, `Position`, `Group` and `Tree` of package `merkle`.  Levels are `uint8`, indexes are
arbitrary-precision.  The groups of a level are collected in a map and their parents arrive on a
channel in the order in which the workers finish, so `update` takes that order as an argument.
-/

namespace SvpChain.Merkle

/-! ## Positions -/

/-- Position of a node in the tree. -/
structure Position where
  level : UInt8
  index : Nat
  deriving DecidableEq

/-- The index part of a position key: `big.Int.Bytes`, with one zero byte for zero. -/
def indexBytes (index : Nat) : Bytes :=
  if (Bytes.ofNat index).length = 0 then [0] else Bytes.ofNat index

/-- `Position.Bytes`, which is also the text `Position.String`. -/
def Position.bytes (position : Position) : Bytes :=
  position.level :: indexBytes position.index

@[simp]
theorem toNat_indexBytes (index : Nat) : Bytes.toNat (indexBytes index) = index := by
  unfold indexBytes
  split
  · next empty =>
      obtain rfl : index = 0 := by simpa using empty
      rfl
  · exact Bytes.toNat_ofNat index

theorem Position.bytes_injective : Function.Injective Position.bytes := by
  rintro ⟨leftLevel, leftIndex⟩ ⟨rightLevel, rightIndex⟩ equal
  simp only [bytes, List.cons.injEq] at equal
  have indexes := congrArg Bytes.toNat equal.2
  simp only [toNat_indexBytes] at indexes
  simp [equal.1, indexes]

/-- `UnmarshalPosition`; the first byte of an empty string is out of range. -/
def unmarshalPosition : Bytes → Option Position
  | [] => none
  | level :: index => some ⟨level, Bytes.toNat index⟩

/-- `Positions.UniqueMap`: the positions with pairwise different texts, first occurrences kept. -/
def uniqueMap : List Position → List Position
  | [] => []
  | position :: positions =>
      position :: (uniqueMap positions).filter fun other => other.bytes ≠ position.bytes

/-- A node with its data. -/
structure Node where
  position : Position
  data : Bytes
  deriving DecidableEq

/-- The entry that a store keeps for a node. -/
def Node.entry (node : Node) : Bytes × Bytes := (node.position.bytes, node.data)

/-! ## Shape arithmetic -/

/-- `TreeCalc`, given by its branch factor. -/
structure TreeCalc where
  bfactorRaw : UInt8

namespace TreeCalc

/-- The branch factor as a big integer. -/
def bfactor (tc : TreeCalc) : Nat := tc.bfactorRaw.toNat

/-- `TreeCalc.GroupCount`. -/
def groupCount (tc : TreeCalc) (nodeCount : Nat) : Nat :=
  if 0 < nodeCount % tc.bfactor then nodeCount / tc.bfactor + 1 else nodeCount / tc.bfactor

/-- The loop of `Height`. Below a branch factor of two it need not end, so it takes a bound on the
number of rounds. -/
def heightLoop (tc : TreeCalc) : Nat → Nat → UInt8 → UInt8
  | 0, _, h => h
  | rounds + 1, nodeCount, h =>
      if 1 < nodeCount then heightLoop tc rounds (tc.groupCount nodeCount) (h + 1) else h

/-- `TreeCalc.Height`; every round loses a node, so `nleaf` rounds are enough. -/
def height (tc : TreeCalc) (nleaf : Nat) : UInt8 := tc.heightLoop nleaf nleaf 1

/-- `TreeCalc.FirstNodeOfGroup`. -/
def firstNodeOfGroup (tc : TreeCalc) (groupIndex : Nat) : Nat := groupIndex * tc.bfactor

/-- `TreeCalc.GroupOfNode`. -/
def groupOfNode (tc : TreeCalc) (nodeIndex : Nat) : Nat := nodeIndex / tc.bfactor

/-- `TreeCalc.NodeIndexInGroup`. -/
def nodeIndexInGroup (tc : TreeCalc) (nodeIndex : Nat) : Nat := nodeIndex % tc.bfactor

end TreeCalc

/-! ## Stores and groups -/

/-- The interface `Store`. -/
structure Store where
  leafCount : Nat
  height : UInt8
  /-- `GetNode`, with `none` for a nil result. -/
  getNode : Position → Option Bytes

/-- The child nodes under one parent. -/
structure Group where
  parentPosition : Position
  nodes : List (Option Node)

namespace Group

/-- `NewGroup`. -/
def new (tc : TreeCalc) (parentPosition : Position) : Group :=
  ⟨parentPosition, List.replicate tc.bfactor none⟩

/-- `Group.SetNode`; an index outside the group is ignored. -/
def setNode (tc : TreeCalc) (group : Group) (node : Node) : Group :=
  { group with nodes := group.nodes.set (tc.nodeIndexInGroup node.position.index) (some node) }

/-- The loop of `Load` from slot `slot` on. -/
def loadFrom (store : Store) (level : UInt8) (offset rowSize : Nat) :
    Nat → List (Option Node) → List (Option Node)
  | _, [] => []
  | slot, some node :: nodes => some node :: loadFrom store level offset rowSize (slot + 1) nodes
  | slot, none :: nodes =>
      let index := offset + slot
      if rowSize ≤ index then none :: nodes -- the loop breaks
      else
        let position : Position := ⟨level, index⟩
        (store.getNode position).map (fun data => ⟨position, data⟩) ::
          loadFrom store level offset rowSize (slot + 1) nodes

/-- `Group.Load`. -/
def load (tc : TreeCalc) (store : Store) (rowSize : Nat) (group : Group) : Group :=
  { group with
    nodes :=
      loadFrom store (group.parentPosition.level - 1)
        (tc.firstNodeOfGroup group.parentPosition.index) rowSize 0 group.nodes }

/-- `Group.Sum`; the sum of an empty group is nil. -/
def sum (hash : Bytes → Bytes) (group : Group) : Bytes :=
  if group.nodes.all Option.isNone then []
  else hash ((group.nodes.filterMap id).map Node.data).flatten

/-- `Group.MakeParent`. -/
def makeParent (hash : Bytes → Bytes) (group : Group) : Node :=
  ⟨group.parentPosition, group.sum hash⟩

end Group

/-! ## Trees -/

/-- A tree engine over a store. -/
structure Tree where
  store : Store
  hash : Bytes → Bytes
  treeCalc : TreeCalc

/-- `NewTree`: a branch factor below two is replaced by two. -/
def newTree (store : Store) (hash : Bytes → Bytes) (branchFactor : UInt8) : Tree :=
  ⟨store, hash, ⟨if branchFactor < 2 then 2 else branchFactor⟩⟩

/-- `UpdateResult`. -/
structure UpdateResult where
  leafCount : Nat
  height : UInt8
  leaves : List Node
  branches : List Node
  root : Node

namespace Tree

/-- `Tree.Root`; an empty store has height zero and looks at level 255. -/
def root (tree : Tree) : Option Node :=
  let position : Position := ⟨tree.store.height - 1, 0⟩
  (tree.store.getNode position).map fun data => ⟨position, data⟩

/-- The parent position of a node, an entry of `getGroupPositions`. -/
def groupPosition (tree : Tree) (node : Node) : Position :=
  ⟨node.position.level + 1, tree.treeCalc.groupOfNode node.position.index⟩

/-- The group of a parent position with its updated nodes set, loaded and summed by a worker. -/
def groupParent (tree : Tree) (nodes : List Node) (rowSize : Nat) (parent : Position) : Node :=
  let members := nodes.filter fun node => (tree.groupPosition node).bytes = parent.bytes
  let group := members.foldl (Group.setNode tree.treeCalc) (Group.new tree.treeCalc parent)
  (group.load tree.treeCalc tree.store rowSize).makeParent tree.hash

/-- `Tree.updateOneLevel`, with the parents in the order of the unique positions. -/
def updateOneLevel (tree : Tree) (nodes : List Node) (rowSize : Nat) : List Node :=
  (uniqueMap (nodes.map tree.groupPosition)).map (tree.groupParent nodes rowSize)

/-- The loop of `Update`; `order` is the order in which the workers of a level finish. -/
def updateLoop (tree : Tree) (order : Nat → List Node → List Node) :
    Nat → Nat → List Node → Nat → List Node → List Node
  | 0, _, _, _, branches => branches
  | rounds + 1, level, nodes, rowSize, branches =>
      let parents := order level (tree.updateOneLevel nodes rowSize)
      updateLoop tree order rounds (level + 1) parents (tree.treeCalc.groupCount rowSize)
        (branches ++ parents)

/-- `Tree.Update`; `none` is an index out of range in the choice of the root. -/
def update (tree : Tree) (order : Nat → List Node → List Node) (leaves : List Node)
    (newLeafCount : Nat) : Option UpdateResult :=
  let height := tree.treeCalc.height newLeafCount
  let branches := tree.updateLoop order (height - 1).toNat 0 leaves newLeafCount []
  let root := if 1 < height then branches.getLast? else leaves.head?
  root.map fun root => ⟨newLeafCount, height, leaves, branches, root⟩

/-- `Tree.Verify`; `none` is a fault of `Update`. -/
def verify (tree : Tree) (order : Nat → List Node → List Node) (leaves : List Node) :
    Option Bool :=
  match tree.root with
  | none => some false
  | some root =>
      if leaves.length = 0 then some false
      else if tree.store.leafCount = 0 then some false
      else if leaves.any fun node =>
          node.position.level ≠ 0 || !(node.position.index < tree.store.leafCount) then
        some false
      else
        (tree.update order leaves tree.store.leafCount).map fun result =>
          root.data == result.root.data

end Tree

/-! ## The map store -/

/-- `MapStore`: a store held in memory, keyed by position texts. -/
structure MapStore where
  leafCount : Nat
  height : UInt8
  nodes : Bytes → Option Bytes

namespace MapStore

/-- The store interface of a map store. -/
def toStore (store : MapStore) : Store :=
  ⟨store.leafCount, store.height, fun position => store.nodes position.bytes⟩

/-- `MapStore.CommitUpdate`. -/
def commitUpdate (store : MapStore) (result : UpdateResult) : MapStore where
  leafCount := result.leafCount
  height := result.height
  nodes :=
    Table.writeAll (Table.writeAll store.nodes (result.leaves.map Node.entry))
      (result.branches.map Node.entry)

end MapStore

end SvpChain.Merkle
