import SvpChain.Consensus.Agreement
import SvpChain.Consensus.Crashes

/-!
# Recursive commits

`commitRecursive` goes down from a block to the last executed one and commits on the way back.  In a tree
of blocks whose heights go up by one, it commits exactly the blocks in between, the lowest first, or meets
another block at the height of the last executed one before any commit.  A commit ends the process where a
transaction of its block is missing.
-/

namespace SvpChain.Consensus

open Core TxPool Program

variable {params : Params} {env : Env} {node node' : Node} {base blk : Block} {path : List Block}

/-! ## Paths of parents -/

/-- The blocks above `base` on the way up to a block, by lookups of parents. -/
inductive Lineage (node : Node) (base : Block) : List Block → Block → Prop where
  | refl : Lineage node base [] base
  | child {path : List Block} {parent blk : Block} (below : Lineage node base path parent)
      (found : node.lookup blk.parentHash = some parent) : Lineage node base (path ++ [blk]) blk

/-- The ancestors of a block are at hand down to height 0, each one lower than its child. -/
structure Rooted (node : Node) (blk : Block) : Prop where
  available : ∀ {base : Block} {path : List Block}, Lineage node base path blk → base.height ≠ 0 →
    ∃ parent, node.lookup base.parentHash = some parent
  heights : ∀ {base parent : Block} {path : List Block}, Lineage node base path blk →
    node.lookup base.parentHash = some parent → base.height.toNat = parent.height.toNat + 1

theorem Lineage.congr (same : ∀ hash, node'.lookup hash = node.lookup hash)
    (lineage : Lineage node base path blk) : Lineage node' base path blk := by
  induction lineage with
  | refl => exact .refl
  | child _ found ih => exact .child ih ((same _).trans found)

theorem Lineage.cases_top (lineage : Lineage node base path blk) :
    (path = [] ∧ base = blk) ∨ ∃ parent below, path = below ++ [blk] ∧
      node.lookup blk.parentHash = some parent ∧ Lineage node base below parent := by
  cases lineage with
  | refl => exact Or.inl ⟨rfl, rfl⟩
  | child below found => exact Or.inr ⟨_, _, rfl, found, below⟩

namespace Rooted

theorem parent (rooted : Rooted node blk) {other : Block}
    (found : node.lookup blk.parentHash = some other) : Rooted node other where
  available lineage := rooted.available (lineage.child found)
  heights lineage := rooted.heights (lineage.child found)

theorem root (height_eq : blk.height = 0) (missing : node.lookup blk.parentHash = none) : Rooted node blk := by
  have only : ∀ {base path}, Lineage node base path blk → base = blk := by
    intro base path lineage
    rcases lineage.cases_top with ⟨-, same⟩ | ⟨_, _, -, found, -⟩
    · exact same
    · cases missing.symm.trans found
  constructor
  · intro base path lineage nonzero
    exact absurd (only lineage ▸ height_eq) nonzero
  · intro base parent path lineage found
    rw [only lineage, missing] at found
    cases found

theorem child {parent : Block} (rooted : Rooted node parent) (found : node.lookup blk.parentHash = some parent)
    (height_eq : blk.height.toNat = parent.height.toNat + 1) : Rooted node blk := by
  constructor
  · intro base path lineage nonzero
    rcases lineage.cases_top with ⟨-, rfl⟩ | ⟨other, below, -, found', lineage⟩
    · exact ⟨parent, found⟩
    · obtain rfl := Option.some.inj (found.symm.trans found')
      exact rooted.available lineage nonzero
  · intro base other path lineage found_base
    rcases lineage.cases_top with ⟨-, rfl⟩ | ⟨other, below, -, found', lineage⟩
    · obtain rfl := Option.some.inj (found.symm.trans found_base)
      exact height_eq
    · obtain rfl := Option.some.inj (found.symm.trans found')
      exact rooted.heights lineage found_base

theorem height_eq (rooted : Rooted node blk) (lineage : Lineage node base path blk) :
    blk.height.toNat = base.height.toNat + path.length := by
  induction lineage with
  | refl => rfl
  | child below found ih =>
      rw [rooted.heights .refl found, ih (rooted.parent found), List.length_append]
      rfl

theorem above (rooted : Rooted node blk) (lineage : Lineage node base path blk) :
    ∀ other ∈ path, base.height < other.height := by
  induction lineage with
  | refl => exact nofun
  | @child path parent blk below found ih =>
      intro other mem
      rcases List.mem_append.mp mem with lower | top
      · exact ih (rooted.parent found) other lower
      · obtain rfl := List.mem_singleton.mp top
        have height_eq := rooted.height_eq (below.child found)
        rw [UInt64.lt_iff_toNat_lt, height_eq, List.length_append, List.length_singleton]
        omega

theorem le_top (rooted : Rooted node blk) (lineage : Lineage node base path blk) :
    ∀ other ∈ path, other.height.toNat ≤ blk.height.toNat := by
  induction lineage with
  | refl => exact nofun
  | @child path parent blk below found ih =>
      intro other mem
      rcases List.mem_append.mp mem with lower | top
      · rw [rooted.heights .refl found]
        exact Nat.le_succ_of_le (ih (rooted.parent found) other lower)
      · rw [List.mem_singleton.mp top]

theorem increasing (rooted : Rooted node blk) (lineage : Lineage node base path blk) :
    path.Pairwise fun low high => low.height < high.height := by
  induction lineage with
  | refl => exact List.Pairwise.nil
  | @child path parent blk below found ih =>
      refine List.pairwise_append.mpr ⟨ih (rooted.parent found), List.pairwise_singleton _ _, ?_⟩
      intro low mem high top
      rw [List.mem_singleton.mp top, UInt64.lt_iff_toNat_lt, rooted.heights .refl found]
      exact Nat.lt_succ_of_le ((rooted.parent found).le_top below low mem)

theorem exists_ancestor (rooted : Rooted node blk) {height : ℕ} (le : height ≤ blk.height.toNat) :
    ∃ base path, Lineage node base path blk ∧ base.height.toNat = height := by
  obtain ⟨gap, gap_eq⟩ := Nat.exists_eq_add_of_le le
  induction gap generalizing blk with
  | zero => exact ⟨blk, [], .refl, gap_eq⟩
  | succ gap ih =>
      have nonzero : blk.height ≠ 0 := by
        intro zero
        rw [zero, UInt64.toNat_zero] at gap_eq
        omega
      obtain ⟨parent, found⟩ := rooted.available .refl nonzero
      have height_eq := rooted.heights .refl found
      obtain ⟨base, path, lineage, base_eq⟩ := ih (rooted.parent found) (by omega) (by omega)
      exact ⟨base, path ++ [blk], lineage.child found, base_eq⟩

theorem blocks (rooted : Rooted node blk) (lineage : Lineage node base path blk) :
    ∃ blks : List Block, blks.length = path.length ∧ blks.Nodup ∧ blks ⊆ node.state.blocks ++ node.storage.blocks ∧
        ∀ other ∈ blks, other.height.toNat < blk.height.toNat := by
  induction lineage with
  | refl => exact ⟨[], rfl, List.nodup_nil, List.nil_subset _, nofun⟩
  | @child path parent blk below found ih =>
      obtain ⟨blks, length_eq, nodup, inside, lower⟩ := ih (rooted.parent found)
      have height_eq := rooted.heights .refl found
      refine ⟨parent :: blks, ?_, List.nodup_cons.mpr ⟨fun again => ?_, nodup⟩,
        List.cons_subset.mpr ⟨lookup_mem found, inside⟩, ?_⟩
      · rw [List.length_cons, length_eq, List.length_append, List.length_singleton]
      · exact Nat.lt_irrefl _ (lower parent again)
      · intro other mem
        rcases List.mem_cons.mp mem with rfl | mem
        · omega
        · exact Nat.lt_trans (lower other mem) (by omega)

theorem length_le (rooted : Rooted node blk) (lineage : Lineage node base path blk) :
    path.length ≤ node.state.blocks.length + node.storage.blocks.length := by
  obtain ⟨blks, length_eq, nodup, inside, -⟩ := rooted.blocks lineage
  have bound := (nodup.subperm inside).length_le
  rwa [List.length_append, length_eq] at bound

end Rooted

/-! ## The commits of a path -/

@[simp]
theorem commits_commit (blk : Block) (trace : List Event) : commits (.commit blk :: trace) = blk :: commits trace := rfl

@[simp]
theorem commits_execute (blk : Block) (txs : List Transaction) (trace : List Event) :
    commits (.execute blk txs :: trace) = commits trace := rfl

theorem wp_commit_commits (blk : Block) :
    wp (commit params env blk) (fun _ node' => commits node'.trace = blk :: commits node.trace)
      (fun _ node' => commits node'.trace = blk :: commits node.trace) node := by
  rw [commit, wp_bind, wp_modify, wp_bind, wp_get, wp_ite]
  refine ⟨fun _ => rfl, fun _ => ?_⟩
  rw [wp_ite]
  refine ⟨fun _ => ?_, fun _ => rfl⟩
  rw [wp_bind, onTxPool, wp_zoom, getTxsToExecute, wp_bind, wp_get]
  cases splitTxs (node.record (.commit blk)).storage.hasTx (node.record (.commit blk)).txPool
      blk.transactions with
  | error reason => rfl
  | ok result => rfl

/-- How `onCommit` ends the process on a path above `base`. -/
inductive Stops (params : Params) (node : Node) (base : Block) (path : List Block) :
    Halt ConsensusError → Node → Prop where
  | breached {node' : Node} (different : node.status.bExec.hash ≠ base.hash)
      (none_committed : commits node'.trace = commits node.trace) :
      Stops params node base path (.fault (.fatal "safety breached")) node'
  | missing {node' : Node} {reason : Fault} {below rest : List Block} {blk : Block}
      (same : node.status.bExec.hash = base.hash) (split : path = below ++ blk :: rest)
      (committable : ∀ other ∈ below, Committable params node other)
      (missing : ¬ Committable params node blk)
      (committed : commits node'.trace = blk :: (below.reverse ++ commits node.trace)) :
      Stops params node base path (.fault reason) node'

/-- What `onCommit` has done when it returns. -/
structure Returns (params : Params) (node : Node) (base : Block) (path : List Block) (node' : Node) :
    Prop where
  same : node.status.bExec.hash = base.hash
  committable : ∀ other ∈ path, Committable params node other
  keeps : Commits params node node'
  committed : commits node'.trace = path.reverse ++ commits node.trace

theorem wp_onCommit_base {fuel : ℕ} (low : ¬ node.status.bExec.height < base.height) :
    wp (onCommit params env fuel (some base)) (fun _ node' => Returns params node base [] node')
      (Stops params node base []) node := by
  have ends : wp (if node.status.bExec.hash ≠ base.hash then fault (.fatal "safety breached") else pure ())
      (fun _ node' => Returns params node base [] node') (Stops params node base []) node := by
    rw [wp_ite]
    refine ⟨fun different => .breached different rfl, fun same => ?_⟩
    exact ⟨not_not.mp same, nofun, (Cached.refl node).commits, rfl⟩
  unfold onCommit
  rw [wp_bind, wp_gets, cmpBlockHeight, wp_bind, wp_pure, wp_bind, Program.deref, wp_pure, wp_ite, Std.compare_eq_gt]
  exact ⟨fun higher => absurd higher low, fun _ => ends⟩

/-- `onCommit` commits the path, up to a block that cannot be committed. -/
theorem wp_onCommit_lineage {fuel : ℕ} (lineage : Lineage node base path blk)
    (low : ¬ node.status.bExec.height < base.height)
    (above : ∀ other ∈ path, node.status.bExec.height < other.height) (enough : path.length ≤ fuel) :
    wp (onCommit params env fuel (some blk)) (fun _ node' => Returns params node base path node')
      (Stops params node base path) node := by
  induction fuel generalizing node blk path with
  | zero =>
      obtain rfl : path = [] := List.length_eq_zero_iff.mp (Nat.le_zero.mp enough)
      rcases lineage.cases_top with ⟨-, rfl⟩ | ⟨_, _, split, -, -⟩
      · exact wp_onCommit_base low
      · exact absurd split (by simp)
  | succ fuel ih =>
      rcases lineage.cases_top with ⟨rfl, rfl⟩ | ⟨parent, below, rfl, found, lineage⟩
      · exact wp_onCommit_base low
      · have higher : node.status.bExec.height < blk.height := above blk (by simp)
        rw [onCommit, wp_bind, wp_gets, cmpBlockHeight, wp_bind, wp_pure, wp_bind, Program.deref, wp_pure, wp_ite,
          Std.compare_eq_gt]
        refine ⟨fun _ => ?_, fun not_higher => absurd higher not_higher⟩
        refine wp_then (wp_getBlockByHash blk.parentHash) ?_
        rintro _ node1 ⟨rfl, cached, -⟩
        obtain ⟨_, cached_eq, same⟩ := id cached
        have trace_eq : node1.trace = node.trace := cached_eq ▸ rfl
        have status_eq : node1.status = node.status := cached_eq ▸ rfl
        have alike : Alike params node node1 := cached.alike
        rw [wp_bind, found]
        refine wp_mono (ih (lineage.congr same) (status_eq ▸ low) ?_ ?_) ?_ ?_
        · intro other mem
          rw [status_eq]
          exact above other (List.mem_append_left _ mem)
        · rw [List.length_append, List.length_singleton] at enough
          exact Nat.le_of_succ_le_succ enough
        · rintro _ node2 ⟨same_hash, committable, keeps, committed⟩
          rw [status_eq] at same_hash
          rw [trace_eq] at committed
          have committable : ∀ other ∈ below, Committable params node other := fun other mem =>
            (alike.committable other).mp (committable other mem)
          have committable_iff := (keeps.committable blk).trans (alike.committable blk)
          refine wp_mono (wp_and (wp_commit_iff blk) (wp_commit_commits blk)) ?_ ?_
          · rintro _ node3 ⟨⟨own, keeps'⟩, committed'⟩
            refine ⟨same_hash, ?_, (cached.commits.trans keeps).trans keeps', ?_⟩
            · intro other mem
              rcases List.mem_append.mp mem with lower | top
              · exact committable other lower
              · rw [List.mem_singleton.mp top]
                exact committable_iff.mp own
            · rw [committed', committed, List.reverse_append]
              rfl
          · rintro _ node3 ⟨⟨⟨reason, rfl⟩, missing⟩, committed'⟩
            refine .missing same_hash rfl committable (mt committable_iff.mpr missing) ?_
            rw [committed', committed]
        · intro _ node2 stops
          cases stops with
          | breached different none_committed =>
              refine .breached (status_eq ▸ different) ?_
              rw [none_committed, trace_eq]
          | missing same_hash split committable missing committed =>
              have split := congrArg (· ++ [blk]) split
              rw [List.append_assoc, List.cons_append] at split
              refine .missing (status_eq ▸ same_hash) split (fun other mem =>
                (alike.committable other).mp (committable other mem)) (mt (alike.committable _).mpr missing) ?_
              rw [committed, trace_eq]

theorem wp_commitRecursive_lineage (rooted : Rooted node blk) (lineage : Lineage node base path blk)
    (height_eq : base.height = node.status.bExec.height) : wp (commitRecursive params env blk)
      (fun _ node' => node.status.bExec.hash = base.hash ∧ (∀ other ∈ path, Committable params node other) ∧
        commits node'.trace = path.reverse ++ commits node.trace ∧ node'.status.bExec = blk)
      (Stops params node base path) node := by
  have low : ¬ node.status.bExec.height < base.height := height_eq ▸ UInt64.lt_irrefl _
  rw [commitRecursive, wp_bind, wp_get, wp_bind]
  refine wp_mono (wp_onCommit_lineage lineage low (height_eq ▸ rooted.above lineage)
    (Nat.le_succ_of_le (rooted.length_le lineage))) ?_ fun _ _ stops => stops
  rintro _ node' ⟨same, committable, -, committed⟩
  exact ⟨same, committable, committed, rfl⟩


theorem Lineage.lookup_base (lineage : Lineage node base path blk) (nonempty : path ≠ []) :
    node.lookup base.hash = some base := by
  induction lineage with
  | refl => exact absurd rfl nonempty
  | @child path parent blk below found ih =>
      cases below with
      | refl => rw [hash_of_lookup found, found]
      | child below' found' => exact ih (by simp)

theorem commitRecursive_of_committable (rooted : Rooted node blk) (lineage : Lineage node node.status.bExec path blk)
    (committable : ∀ other ∈ path, Committable params node other) : (commitRecursive params env blk node).1 = .ok () ∧
      commits (final (commitRecursive params env blk) node).trace = path.reverse ++ commits node.trace ∧
      (final (commitRecursive params env blk) node).status.bExec = blk := by
  rcases ending_of_wp (@wp_commitRecursive_lineage params env _ _ _ _ rooted lineage rfl) with
    ⟨_, returned, -, -, committed, executed⟩ | ⟨halt, -, stops⟩
  · exact ⟨returned, committed, executed⟩
  · cases stops with
    | breached different => exact absurd rfl different
    | missing _ split _ missing => exact absurd (committable _ (by simp [split])) missing

theorem first_unique {α : Type} {property : α → Prop} {below below' rest rest' : List α} {top top' : α}
    (split : below ++ top :: rest = below' ++ top' :: rest') (holds : ∀ x ∈ below, property x)
    (fails : ¬ property top) (holds' : ∀ x ∈ below', property x) (fails' : ¬ property top') :
    below = below' ∧ top = top' := by
  induction below generalizing below' with
  | nil =>
      cases below' with
      | nil => exact ⟨rfl, (List.cons.inj split).1⟩
      | cons x below' => exact absurd ((List.cons.inj split).1 ▸ holds' x (by simp)) fails
  | cons x below ih =>
      cases below' with
      | nil => exact absurd ((List.cons.inj split).1 ▸ holds x (by simp)) fails'
      | cons x' below' =>
          rw [List.cons_append, List.cons_append, List.cons.injEq] at split
          obtain ⟨rfl, split⟩ := split
          obtain ⟨rfl, rfl⟩ := ih split (fun y mem => holds y (by simp [mem]))
            (fun y mem => holds' y (by simp [mem]))
          exact ⟨rfl, rfl⟩

theorem commitRecursive_of_missing (rooted : Rooted node blk) {below rest : List Block} {top : Block}
    (lineage : Lineage node node.status.bExec (below ++ top :: rest) blk)
    (committable : ∀ other ∈ below, Committable params node other) (missing : ¬ Committable params node top) :
    (∃ reason, (commitRecursive params env blk node).1 = .error (.fault reason)) ∧
      commits (final (commitRecursive params env blk) node).trace = (below ++ [top]).reverse ++ commits node.trace := by
  rcases ending_of_wp (@wp_commitRecursive_lineage params env _ _ _ _ rooted lineage rfl) with
    ⟨_, -, -, committable', -⟩ | ⟨halt, stopped, stops⟩
  · exact absurd (committable' top (by simp)) missing
  · cases stops with
    | breached different => exact absurd rfl different
    | @missing _ reason below' rest' top' _ split committable' missing' committed =>
        obtain ⟨rfl, rfl⟩ := first_unique split committable missing committable' missing'
        refine ⟨⟨reason, stopped⟩, ?_⟩
        rw [committed, List.reverse_append]
        rfl

/-- In a tree of blocks, `commitRecursive` commits the path from the last executed block to a higher block, in
the order of heights, as far as the transactions are at hand, and on a fork it ends the process before any
commit. -/
theorem commitRecursive_commits_path (rooted : Rooted node blk)
    (executed : node.lookup node.status.bExec.hash = some node.status.bExec)
    (higher : node.status.bExec.height < blk.height) :
    (∀ path, Lineage node node.status.bExec path blk →
      path.Pairwise (fun low high => low.height < high.height) ∧
      ((∀ other ∈ path, Committable params node other) →
        (commitRecursive params env blk node).1 = .ok () ∧
        commits (final (commitRecursive params env blk) node).trace = path.reverse ++ commits node.trace ∧
        (final (commitRecursive params env blk) node).status.bExec = blk) ∧
      ∀ below top rest, path = below ++ top :: rest →
        (∀ other ∈ below, Committable params node other) → ¬ Committable params node top →
          (∃ reason, (commitRecursive params env blk node).1 = .error (.fault reason)) ∧
          commits (final (commitRecursive params env blk) node).trace =
            (below ++ [top]).reverse ++ commits node.trace) ∧
    ((¬ ∃ path, Lineage node node.status.bExec path blk) →
      (commitRecursive params env blk node).1 = .error (.fault (.fatal "safety breached")) ∧
      commits (final (commitRecursive params env blk) node).trace = commits node.trace) := by
  refine ⟨fun path lineage => ⟨rooted.increasing lineage, commitRecursive_of_committable rooted lineage, ?_⟩,
    fun unrelated => ?_⟩
  · rintro below top rest rfl
    exact commitRecursive_of_missing rooted lineage
  · obtain ⟨base, path, lineage, base_eq⟩ :=
      rooted.exists_ancestor (Nat.le_of_lt (UInt64.lt_iff_toNat_lt.mp higher))
    have height_eq : base.height = node.status.bExec.height := UInt64.toNat_inj.mp base_eq
    have nonempty : path ≠ [] := by
      rintro rfl
      rcases lineage.cases_top with ⟨-, rfl⟩ | ⟨_, _, split, -, -⟩
      · exact UInt64.lt_irrefl _ (height_eq ▸ higher)
      · exact absurd split (by simp)
    have different : node.status.bExec.hash ≠ base.hash := by
      intro same
      have found := lineage.lookup_base nonempty
      rw [← same, executed] at found
      exact unrelated ⟨path, Option.some.inj found ▸ lineage⟩
    rcases ending_of_wp (@wp_commitRecursive_lineage params env _ _ _ _ rooted lineage height_eq) with
      ⟨_, -, same, -⟩ | ⟨halt, stopped, stops⟩
    · exact absurd same different
    · cases stops with
      | breached _ none_committed => exact ⟨stopped, none_committed⟩
      | missing same => exact absurd same different

/-- A block on the genesis block with a transaction that is not at hand. -/
def unsyncedBlock : Block :=
  childBlock 1 (transparentBlock []) 0 1 0 [(transparentTx [1] [2]).hash]

/-- Its commit ends the process, and the last executed block stays. -/
theorem missing_transaction_ends_commit :
    Started transparentParams (transparentSigner 2) twoValidators (transparentBlock []) secondValidator ∧
      secondValidator.lookup unsyncedBlock.parentHash = some secondValidator.status.bExec ∧
      unsyncedBlock.height = secondValidator.status.bExec.height + 1 ∧
      (commitRecursive transparentParams silentEnv unsyncedBlock secondValidator).1 =
        .error (.fault (.fatal "missing tx to execute")) ∧
      (final (commitRecursive transparentParams silentEnv unsyncedBlock) secondValidator).status.bExec ≠
        unsyncedBlock :=
  ⟨secondValidator_started, by decide +kernel, by decide +kernel, by decide +kernel, by decide +kernel⟩

/-- A child of the genesis block and its child, without transactions. -/
def lowerBlk : Block := childBlock 1 (transparentBlock []) 0 1 0 []

def upperBlk : Block := childBlock 1 lowerBlk 0 2 0 []

/-- The second validator commits both. -/
theorem commitRecursive_commits_path_two :
    (commitRecursive transparentParams silentEnv upperBlk (secondValidator.setBlock lowerBlk)).1 = .ok () ∧
      commits (final (commitRecursive transparentParams silentEnv upperBlk)
        (secondValidator.setBlock lowerBlk)).trace = [upperBlk, lowerBlk] ∧
      (final (commitRecursive transparentParams silentEnv upperBlk)
        (secondValidator.setBlock lowerBlk)).status.bExec = upperBlk := by
  have lower : (secondValidator.setBlock lowerBlk).lookup lowerBlk.parentHash = some (transparentBlock []) := by
    decide +kernel
  have upper : (secondValidator.setBlock lowerBlk).lookup upperBlk.parentHash = some lowerBlk := by
    decide +kernel
  have rooted : Rooted (secondValidator.setBlock lowerBlk) upperBlk :=
    ((Rooted.root rfl (by decide +kernel)).child lower rfl).child upper rfl
  have lineage : Lineage (secondValidator.setBlock lowerBlk) (transparentBlock []) [lowerBlk, upperBlk] upperBlk :=
    (Lineage.refl.child lower).child upper
  have committable : ∀ other ∈ [lowerBlk, upperBlk],
      Committable transparentParams (secondValidator.setBlock lowerBlk) other := by
    intro other mem _ _ hash hash_mem
    simp only [List.mem_cons, List.not_mem_nil, or_false] at mem
    rcases mem with rfl | rfl <;> cases hash_mem
  exact ((commitRecursive_commits_path rooted (by decide +kernel) (by decide)).1 _ lineage).2.1 committable

end SvpChain.Consensus
