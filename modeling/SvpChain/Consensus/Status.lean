import SvpChain.Core.Message

/-!
# Consensus status

`window` and `status` of package `consensus`: the stake window, the highest certificate, the view, and
the votes for the proposal in progress.  Start times of views are left out.
-/

namespace SvpChain.Consensus

open Core

/-! ## The stake window -/

/-- `window`. -/
structure Window where
  qcQuotas : List UInt64
  qcAcc : UInt64
  voteQuotas : List UInt64
  voteAcc : UInt64
  majority : UInt64
  limit : UInt64
  height : UInt64
  size : ℕ
  /-- `AverageVote`, `RandomVote`, `OrdinaryVote` and `MonopolyVote` are 0 to 3. -/
  strategy : UInt8
  recover : Bool
  deriving DecidableEq

namespace Window

/-- The last `size - 1` entries of the certificates. -/
def recent (w : Window) : List UInt64 := w.qcQuotas.drop (w.qcQuotas.length - (w.size - 1))

/-- `w.qcQuotas[0]` and `w.voteQuotas[0]`. -/
def first : List UInt64 → Except Fault UInt64
  | [] => .error .indexOutOfRange
  | quota :: _ => .ok quota

/-- `window.update`. -/
def update (w : Window) (qc vote height : UInt64) : Except Fault Window :=
  if w.height < height then do
    let qcFirst ← first w.qcQuotas
    let voteFirst ← first w.voteQuotas
    return { w with
      qcAcc := w.qcAcc - qcFirst + qc
      qcQuotas := w.qcQuotas.tail ++ [qc]
      voteAcc := w.voteAcc - voteFirst + vote
      voteQuotas := w.voteQuotas.tail ++ [vote]
      height := height }
  else .ok w

/-- A quotient of machine integers. -/
def quotient (left right : UInt64) : Except Fault UInt64 :=
  if right = 0 then .error (.panic "integer divide by zero") else .ok (left / right)

/-- A remainder of machine integers. -/
def remainder (left right : UInt64) : Except Fault UInt64 :=
  if right = 0 then .error (.panic "integer divide by zero") else .ok (left % right)

/-- `x`, or zero where `int(x) < 0`. -/
def clamp (x : UInt64) : UInt64 := if 2 ^ 63 ≤ x.toNat then 0 else x

/-- `window.vote`: the quota and whether to vote, with a random number. -/
def vote (preserveTxFlag : Bool) (rand : UInt64) (w : Window) : Except Fault (UInt64 × Bool) :=
  match w.strategy with
  | 0 => return (← quotient w.limit (UInt64.ofNat w.size), true)
  | 1 => do
      let voteFirst ← first w.voteQuotas
      if preserveTxFlag = false ∧ 50 < w.height then
        return (w.limit - w.voteAcc + voteFirst, true)
      else
        let pre := w.voteAcc - voteFirst
        let max := clamp ((3 * w.limit + 3) / 4 - pre)
        let min := clamp ((w.limit + 1) / 2 - pre)
        return ((← remainder rand (max - min + 1)) + min, true)
  | 2 =>
      if w.recover = false ∧ 100 ≤ w.height ∧ w.height ≤ 99 + UInt64.ofNat w.size ∧
          w.majority ≤ w.limit then
        return (0, false)
      else return (← quotient w.limit (UInt64.ofNat w.size), true)
  | 3 =>
      if w.recover = false ∧ w.height = 100 then
        if w.majority ≤ w.limit then do
          let voteFirst ← first w.voteQuotas
          return (w.limit - w.voteAcc + voteFirst, true)
        else return (0, false)
      else return (← quotient w.limit (UInt64.ofNat w.size), true)
  | _ => .error (.panic "no support voting strategy")

/-- The accumulator holds the sum of the certificates in the window. -/
structure Summed (w : Window) : Prop where
  length_eq : w.qcQuotas.length = w.size
  qcAcc_eq : w.qcAcc = w.qcQuotas.sum

theorem sum_replicate_zero (size : ℕ) : (List.replicate size (0 : UInt64)).sum = 0 := by
  induction size with
  | zero => rfl
  | succ size ih => rw [List.replicate_succ, List.sum_cons, ih, UInt64.zero_add]

theorem sum_set_of_zero {quotas : List UInt64} {place : ℕ} (zero : quotas[place]? = some 0)
    (quota : UInt64) : (quotas.set place quota).sum = quotas.sum + quota := by
  induction quotas generalizing place with
  | nil => cases zero
  | cons first quotas ih =>
      cases place with
      | zero =>
          obtain rfl := Option.some.inj zero
          simp only [List.set_cons_zero, List.sum_cons]
          grind
      | succ place =>
          rw [List.set_cons_succ, List.sum_cons, ih (by simpa using zero), List.sum_cons,
            UInt64.add_assoc]

theorem update_eq_ok_iff {w w' : Window} {qc vote height : UInt64} (higher : w.height < height) :
    w.update qc vote height = .ok w' ↔ ∃ quota quotas voted votes,
      w.qcQuotas = quota :: quotas ∧ w.voteQuotas = voted :: votes ∧
      w' = { w with
        qcAcc := w.qcAcc - quota + qc
        qcQuotas := quotas ++ [qc]
        voteAcc := w.voteAcc - voted + vote
        voteQuotas := votes ++ [vote]
        height := height } := by
  rw [update, if_pos higher]
  cases quotas_eq : w.qcQuotas with
  | nil => simp [first, bind, Except.bind]
  | cons quota quotas =>
      cases votes_eq : w.voteQuotas with
      | nil => simp [first, bind, Except.bind]
      | cons voted votes => simp [first, bind, Except.bind, pure, Except.pure, eq_comm]

theorem update_of_not_lt {w : Window} {qc vote height : UInt64} (lower : ¬ w.height < height) :
    w.update qc vote height = .ok w := if_neg lower

theorem sum_append_sub (quota : UInt64) (quotas : List UInt64) (entry : UInt64) :
    (quota :: quotas).sum - quota + entry = (quotas ++ [entry]).sum := by
  simp only [List.sum_append, List.sum_cons, List.sum_nil]
  grind

theorem Summed.update {w w' : Window} {qc vote height : UInt64} (summed : w.Summed)
    (updated : w.update qc vote height = .ok w') : w'.Summed := by
  by_cases higher : w.height < height
  · obtain ⟨quota, quotas, -, -, quotas_eq, -, rfl⟩ := (update_eq_ok_iff higher).mp updated
    have ⟨length_eq, qcAcc_eq⟩ := summed
    rw [quotas_eq] at length_eq qcAcc_eq
    exact ⟨by simpa using length_eq, by rw [qcAcc_eq, sum_append_sub]⟩
  · rw [update_of_not_lt higher] at updated
    exact Except.ok.inj updated ▸ summed

end Window

/-! ## The status -/

/-- `viewChange`: -1, 0 and 1. -/
inductive ViewChange where
  | failed
  | success
  | ongoing
  deriving DecidableEq, Repr

/-- `status`. Without a proposal there are no votes. -/
structure Status where
  bExec : Block
  bLeaf : Block
  qcHigh : QuorumCert
  view : UInt32
  leaderIndex : UInt32
  viewChange : ViewChange
  proposal : Option Block
  /-- At most one of each voter. -/
  votes : List Vote
  quotaCount : UInt64
  window : Window

/-- Errors of `status.addVote`. -/
inductive VoteError where
  /-- `no proposal in progress`. -/
  | noProposal
  /-- `not same block`. -/
  | notSameBlock
  /-- `not same view`. -/
  | notSameView
  /-- `duplicate vote`. -/
  | duplicateVote
  deriving DecidableEq, Repr

namespace Status

/-- `status.getQuotaCount`. -/
def getQuotaCount (s : Status) : Except Fault UInt64 := do
  return s.quotaCount + s.window.qcAcc - (← Window.first s.window.qcQuotas)

/-- `status.startProposal`. -/
def startProposal (s : Status) (blk : Block) : Status :=
  { s with proposal := some blk, votes := [], quotaCount := 0 }

/-- `status.endProposal`. -/
def endProposal (s : Status) : Status :=
  { s with proposal := none, votes := [], quotaCount := 0 }

/-- `status.addVote`. -/
def addVote (s : Status) (vote : Vote) : Except VoteError Status :=
  match s.proposal with
  | none => .error .noProposal
  | some proposal =>
      if proposal.hash ≠ vote.blockHash then .error .notSameBlock
      else if proposal.view ≠ vote.view then .error .notSameView
      else if vote.voter.pubKey ∈ s.votes.map (fun other => other.voter.pubKey) then
        .error .duplicateVote
      else .ok { s with votes := s.votes ++ [vote], quotaCount := s.quotaCount + vote.quota }

theorem addVote_eq_ok {s s' : Status} {vote : Vote} (added : s.addVote vote = .ok s') :
    (∃ proposal, s.proposal = some proposal ∧ proposal.hash = vote.blockHash ∧
      proposal.view = vote.view) ∧
      vote.voter.pubKey ∉ s.votes.map (fun other => other.voter.pubKey) ∧
      s' = { s with votes := s.votes ++ [vote], quotaCount := s.quotaCount + vote.quota } := by
  unfold addVote at added
  cases in_progress : s.proposal with
  | none => simp [in_progress] at added
  | some proposal =>
      simp only [in_progress] at added
      split at added
      · cases added
      · next same_hash =>
          split at added
          · cases added
          · next same_view =>
              split at added
              · cases added
              · next fresh =>
                  exact ⟨⟨proposal, rfl, not_not.mp same_hash, not_not.mp same_view⟩, fresh,
                    (Except.ok.inj added).symm⟩

end Status

end SvpChain.Consensus
