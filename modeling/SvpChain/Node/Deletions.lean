import SvpChain.Node.RoleStore

/-!
# Deletions in either order

`DeleteValidator` takes entries out of slices at positions that it searches for.  Deletions of different
keys find the same entries in either order, at positions that one deletion moves for the other.
-/

namespace SvpChain.Roles

open Core

/-! ## Positions -/

section

variable {α : Type*}

/-- Take out the entry at a position, if there is one. -/
def erase (place : Option ℕ) (entries : List α) : List α :=
  match place with
  | none => entries
  | some i => entries.eraseIdx i

/-- Where an entry is after another was taken out. -/
def shift (place : Option ℕ) (j : ℕ) : ℕ :=
  match place with
  | none => j
  | some i => if j < i then j else j - 1

theorem getElem?_erase {place : Option ℕ} {j : ℕ} (different : ∀ i ∈ place, i ≠ j) (entries : List α) :
    (erase place entries)[shift place j]? = entries[j]? := by
  cases place with
  | none => rfl
  | some i =>
      have different := different i rfl
      simp only [erase, shift, List.getElem?_eraseIdx]
      split
      · rfl
      · rw [if_neg (by omega), Nat.sub_add_cancel (by omega)]

theorem erase_comm {left right : Option ℕ} (different : ∀ i ∈ left, ∀ j ∈ right, i ≠ j) (entries : List α) :
    erase (right.map (shift left)) (erase left entries) = erase (left.map (shift right)) (erase right entries) := by
  cases left with
  | none => cases right <;> rfl
  | some i =>
      cases right with
      | none => rfl
      | some j =>
          have different := different i rfl j rfl
          refine List.ext_getElem? fun k => ?_
          simp only [Option.map_some, erase, shift, List.getElem?_eraseIdx]
          grind

theorem erase_succ (place : Option ℕ) (entry : α) (entries : List α) :
    erase (place.map (· + 1)) (entry :: entries) = entry :: erase place entries := by
  cases place <;> rfl

theorem map_shift_succ {place found : Option ℕ} (different : ∀ i ∈ place, ∀ j ∈ found, i ≠ j) :
    (found.map (· + 1)).map (shift (place.map (· + 1))) = (found.map (shift place)).map (· + 1) := by
  cases found with
  | none => rfl
  | some j =>
      cases place with
      | none => rfl
      | some i =>
          have different := different i rfl j rfl
          simp only [Option.map_some, shift, Option.some.injEq]
          grind

theorem map_shift_none (found : Option ℕ) : found.map (shift none) = found := by
  cases found <;> rfl

theorem map_shift_zero (found : Option ℕ) : (found.map (· + 1)).map (shift (some 0)) = found := by
  cases found <;> rfl

theorem forall_map_succ_ne {place found : Option ℕ} (different : ∀ i ∈ place, ∀ j ∈ found, i ≠ j) :
    ∀ i ∈ place.map (· + 1), ∀ j ∈ found.map (· + 1), i ≠ j := by
  cases place <;> cases found <;> simp_all

theorem findIdx?_erase {hit other : α → Bool} (disjoint : ∀ entry, hit entry = true → other entry = false)
    (entries : List α) : (erase (entries.findIdx? other) entries).findIdx? hit =
        (entries.findIdx? hit).map (shift (entries.findIdx? other)) ∧
      ∀ i ∈ entries.findIdx? other, ∀ j ∈ entries.findIdx? hit, i ≠ j := by
  induction entries with
  | nil => exact ⟨rfl, nofun⟩
  | cons entry entries ih =>
      obtain ⟨same, different⟩ := ih
      simp only [List.findIdx?_cons]
      cases other_head : other entry with
      | true =>
          have hit_head : hit entry = false := by
            by_contra hits
            rw [disjoint entry (by simpa using hits)] at other_head
            cases other_head
          simp only [hit_head, if_true, Bool.false_eq_true, if_false]
          exact ⟨(map_shift_zero _).symm, by simp⟩
      | false =>
          simp only [Bool.false_eq_true, if_false, erase_succ, List.findIdx?_cons]
          cases hit_head : hit entry with
          | true =>
              simp only [if_true]
              exact ⟨by cases entries.findIdx? other <;> rfl, by simp⟩
          | false =>
              simp only [Bool.false_eq_true, if_false]
              exact ⟨by rw [same, map_shift_succ different], forall_map_succ_ne different⟩

end

variable {formats : Formats}

/-- The position that the peer loop takes out. -/
def placeOf : Except Fault (Option ℕ) → Option ℕ
  | .ok place => place
  | .error _ => none

theorem findPeer_erase {keyStr other : String} (different_keys : keyStr ≠ other) (peers : List (Option Peer)) :
    Table.findPeer formats keyStr (erase (placeOf (Table.findPeer formats other peers)) peers) =
        (Table.findPeer formats keyStr peers).map (Option.map (shift (placeOf (Table.findPeer formats other peers)))) ∧
      ∀ i ∈ placeOf (Table.findPeer formats other peers),
        ∀ j ∈ placeOf (Table.findPeer formats keyStr peers), i ≠ j := by
  have placeOf_map (found : Except Fault (Option ℕ)) :
      placeOf (found.map (Option.map (· + 1))) = (placeOf found).map (· + 1) := by
    cases found <;> rfl
  induction peers with
  | nil => exact ⟨rfl, nofun⟩
  | cons peer peers ih =>
      cases peer with
      | none => exact ⟨rfl, nofun⟩
      | some peer =>
          obtain ⟨same, different⟩ := ih
          simp only [Table.findPeer]
          by_cases other_head : formats.string peer.pubKey = other
          · have key_head : formats.string peer.pubKey ≠ keyStr := fun hits => different_keys (hits.symm.trans other_head)
            simp only [if_pos other_head, if_neg key_head, placeOf_map]
            refine ⟨?_, by simp [placeOf]⟩
            change Table.findPeer formats keyStr peers = _
            cases Table.findPeer formats keyStr peers with
            | error reason => rfl
            | ok found => exact congrArg Except.ok (map_shift_zero found).symm
          · simp only [if_neg other_head, placeOf_map, erase_succ, Table.findPeer]
            by_cases key_head : formats.string peer.pubKey = keyStr
            · simp only [if_pos key_head]
              refine ⟨?_, by simp [placeOf]⟩
              cases placeOf (Table.findPeer formats other peers) <;> rfl
            · simp only [if_neg key_head, placeOf_map]
              refine ⟨?_, forall_map_succ_ne different⟩
              rw [same]
              cases found_eq : Table.findPeer formats keyStr peers with
              | error reason => rfl
              | ok found =>
                  rw [found_eq] at different
                  exact congrArg Except.ok (map_shift_succ different).symm

/-! ## Deletions -/

/-- What a deletion does to the table. -/
structure Deletion where
  outcome : Except (Halt RoleError) Unit
  /-- The position of the validator that is taken out, with its stake. -/
  entry : Option (ℕ × UInt64)
  /-- The position of the peer that is taken out. -/
  peer : Option ℕ

namespace Deletion

/-- The peer loop, after a validator was taken out or none. -/
def ofPeers (found : Except Fault (Option ℕ)) (entry : Option (ℕ × UInt64)) : Deletion where
  outcome := match found with
    | .ok _ => .ok ()
    | .error reason => .error (.fault reason)
  entry := entry
  peer := placeOf found

/-- The deletion of a key. -/
def of (formats : Formats) (keyStr : String) (store : Table) : Deletion :=
  match store.validatorMap.lookup keyStr,
    store.validators.findIdx? fun pubKey => formats.string pubKey = keyStr with
  | none, _ => ⟨.error (.error .validatorNotFound), none, none⟩
  | some _, none => ofPeers (Table.findPeer formats keyStr store.peers) none
  | some _, some i =>
      match store.stakeQuotas[i]? with
      | none => ⟨.error (.fault .indexOutOfRange), none, none⟩
      | some quota => ofPeers (Table.findPeer formats keyStr store.peers) (some (i, quota))

/-- The table after a deletion. -/
def apply (deletion : Deletion) (keyStr : String) (store : Table) : Table where
  validatorMap := if deletion.entry.isSome then store.validatorMap.filter fun entry => entry.1 ≠ keyStr
    else store.validatorMap
  validators := erase (deletion.entry.map Prod.fst) store.validators
  stakeQuotas := erase (deletion.entry.map Prod.fst) store.stakeQuotas
  quotaCount := store.quotaCount - (deletion.entry.map Prod.snd).getD 0
  windowSize := store.windowSize
  peers := erase deletion.peer store.peers
  graceHeight := store.graceHeight

theorem apply_none (outcome : Except (Halt RoleError) Unit) (keyStr : String) (store : Table) :
    (⟨outcome, none, none⟩ : Deletion).apply keyStr store = store := by
  simp [apply, erase]

theorem deletePeer_eq_ofPeers (keyStr : String) (store : Table) : Table.deletePeer formats keyStr store =
      ((ofPeers (Table.findPeer formats keyStr store.peers) none).outcome,
        (ofPeers (Table.findPeer formats keyStr store.peers) none).apply keyStr store) := by
  rw [deletePeer_eq]
  cases Table.findPeer formats keyStr store.peers with
  | error reason => simp [ofPeers, placeOf, apply, erase]
  | ok place => cases place <;> simp [ofPeers, placeOf, apply, erase, Table.withPeers]

theorem deleteValidator_eq_apply (keyStr : String) (store : Table) : Table.deleteValidator formats keyStr store =
      ((of formats keyStr store).outcome, (of formats keyStr store).apply keyStr store) := by
  rw [deleteValidator_eq, of]
  cases store.validatorMap.lookup keyStr with
  | none => simp only [apply_none]
  | some position =>
      cases store.validators.findIdx? fun pubKey => formats.string pubKey = keyStr with
      | none => exact deletePeer_eq_ofPeers keyStr store
      | some i =>
          cases at_i : store.stakeQuotas[i]? with
          | none => simp only [at_i, apply_none]
          | some quota =>
              simp only [at_i]
              refine (deletePeer_eq_ofPeers keyStr (store.remove i keyStr quota)).trans ?_
              simp [ofPeers, apply, erase, Table.remove]

/-- A deletion takes out what it searched for, or less. -/
structure Fits (formats : Formats) (keyStr : String) (store : Table) (deletion : Deletion) : Prop where
  entry : deletion.entry.map Prod.fst = none ∨ deletion.entry.map Prod.fst =
    store.validators.findIdx? fun pubKey => formats.string pubKey = keyStr
  peer : deletion.peer = none ∨ deletion.peer = placeOf (Table.findPeer formats keyStr store.peers)

theorem fits (formats : Formats) (keyStr : String) (store : Table) : Fits formats keyStr store (of formats keyStr store) := by
  unfold of
  cases store.validatorMap.lookup keyStr with
  | none => exact ⟨Or.inl rfl, Or.inl rfl⟩
  | some position =>
      cases found : store.validators.findIdx? fun pubKey => formats.string pubKey = keyStr with
      | none => exact ⟨Or.inl rfl, Or.inr rfl⟩
      | some i =>
          cases at_i : store.stakeQuotas[i]? with
          | none => simp only [at_i]; exact ⟨Or.inl rfl, Or.inl rfl⟩
          | some quota => simp only [at_i]; exact ⟨Or.inr found.symm, Or.inr rfl⟩

section

variable {keyStr other : String} {store : Table} {deletion : Deletion}

theorem Fits.lookup (different : keyStr ≠ other) :
    (deletion.apply other store).validatorMap.lookup keyStr = store.validatorMap.lookup keyStr := by
  simp only [apply]
  split
  · exact SvpChain.Table.lookup_filter_ne different _
  · rfl

theorem Fits.findIdx? (fits : Fits formats other store deletion) (different : keyStr ≠ other) :
    (deletion.apply other store).validators.findIdx? (fun pubKey => formats.string pubKey = keyStr) =
        (store.validators.findIdx? fun pubKey => formats.string pubKey = keyStr).map
          (shift (deletion.entry.map Prod.fst)) ∧ ∀ i ∈ deletion.entry.map Prod.fst,
        ∀ j ∈ store.validators.findIdx? fun pubKey => formats.string pubKey = keyStr, i ≠ j := by
  rcases fits.entry with none_eq | found_eq
  · simp only [apply, none_eq, erase]
    exact ⟨(map_shift_none _).symm, nofun⟩
  · simp only [apply, found_eq]
    refine findIdx?_erase (fun pubKey hits => ?_) _
    simpa [of_decide_eq_true hits] using different

theorem Fits.findPeer (fits : Fits formats other store deletion) (different : keyStr ≠ other) :
    Table.findPeer formats keyStr (deletion.apply other store).peers =
        (Table.findPeer formats keyStr store.peers).map (Option.map (shift deletion.peer)) ∧
      ∀ i ∈ deletion.peer, ∀ j ∈ placeOf (Table.findPeer formats keyStr store.peers), i ≠ j := by
  rcases fits.peer with none_eq | found_eq
  · simp only [apply, none_eq, erase]
    refine ⟨?_, nofun⟩
    cases Table.findPeer formats keyStr store.peers with
    | error reason => rfl
    | ok found => exact congrArg Except.ok (map_shift_none found).symm
  · simp only [apply, found_eq]
    exact findPeer_erase different _

end

/-- The same deletion in a table from which another was made. -/
def after (deletion earlier : Deletion) : Deletion where
  outcome := deletion.outcome
  entry := deletion.entry.map fun entry => (shift (earlier.entry.map Prod.fst) entry.1, entry.2)
  peer := deletion.peer.map (shift earlier.peer)

theorem ofPeers_map (found : Except Fault (Option ℕ)) (entry : Option (ℕ × UInt64)) (earlier : Deletion) :
    ofPeers (found.map (Option.map (shift earlier.peer)))
      (entry.map fun entry => (shift (earlier.entry.map Prod.fst) entry.1, entry.2)) =
        (ofPeers found entry).after earlier := by
  cases found <;> rfl

theorem of_apply {keyStr other : String} (different : keyStr ≠ other) {store : Table} {earlier : Deletion}
    (fits : Fits formats other store earlier) :
    of formats keyStr (earlier.apply other store) = (of formats keyStr store).after earlier := by
  obtain ⟨found_eq, places⟩ := fits.findIdx? different
  unfold of
  rw [Fits.lookup different, found_eq, (fits.findPeer different).1]
  cases store.validatorMap.lookup keyStr with
  | none => rfl
  | some position =>
      cases found : store.validators.findIdx? fun pubKey => formats.string pubKey = keyStr with
      | none => exact ofPeers_map _ none earlier
      | some j =>
          have quota_eq : (earlier.apply other store).stakeQuotas[shift (earlier.entry.map Prod.fst) j]? =
              store.stakeQuotas[j]? :=
            getElem?_erase (fun i mem => places i mem j found) _
          simp only [Option.map_some, quota_eq]
          cases store.stakeQuotas[j]? with
          | none => rfl
          | some quota => exact ofPeers_map _ (some (j, quota)) earlier

theorem apply_comm {keyStr other : String} (different : keyStr ≠ other) {store : Table} {left right : Deletion}
    (left_fits : Fits formats keyStr store left) (right_fits : Fits formats other store right) :
    (right.after left).apply other (left.apply keyStr store) =
      (left.after right).apply keyStr (right.apply other store) := by
  have entries_ne : ∀ i ∈ left.entry.map Prod.fst, ∀ j ∈ right.entry.map Prod.fst, i ≠ j := by
    intro i i_mem j j_mem
    rcases right_fits.entry with none_eq | found_eq
    · rw [none_eq] at j_mem
      cases j_mem
    · exact (left_fits.findIdx? different.symm).2 i i_mem j (found_eq ▸ j_mem)
  have peers_ne : ∀ i ∈ left.peer, ∀ j ∈ right.peer, i ≠ j := by
    intro i i_mem j j_mem
    rcases right_fits.peer with none_eq | found_eq
    · rw [none_eq] at j_mem
      cases j_mem
    · exact (left_fits.findPeer different.symm).2 i i_mem j (found_eq ▸ j_mem)
  have places (first second : Deletion) : (first.after second).entry.map Prod.fst =
      (first.entry.map Prod.fst).map (shift (second.entry.map Prod.fst)) := by
    simp [after, Option.map_map, Function.comp_def]
  have stakes (first second : Deletion) :
      (first.after second).entry.map Prod.snd = first.entry.map Prod.snd := by
    simp [after, Option.map_map, Function.comp_def]
  have removes (first second : Deletion) : (first.after second).entry.isSome = first.entry.isSome :=
    Option.isSome_map
  unfold apply
  simp only [places, stakes, removes]
  congr 1
  · split <;> split <;> simp only [List.filter_comm]
  · exact erase_comm entries_ne _
  · exact erase_comm entries_ne _
  · grind
  · exact erase_comm peers_ne _

end Deletion

/-- Deletions of different keys have the same outcomes and leave the same table in either order. -/
theorem deleteValidator_comm (formats : Formats) {left right : String} (different : left ≠ right)
    (store : Table) :
    let first := Table.deleteValidator formats left store
    let second := Table.deleteValidator formats right store
    (Table.deleteValidator formats right first.2).1 = second.1 ∧
      (Table.deleteValidator formats left second.2).1 = first.1 ∧
      (Table.deleteValidator formats right first.2).2 = (Table.deleteValidator formats left second.2).2 := by
  have left_fits := Deletion.fits formats left store
  have right_fits := Deletion.fits formats right store
  simp only [Deletion.deleteValidator_eq_apply, Deletion.of_apply different.symm left_fits,
    Deletion.of_apply different right_fits]
  exact ⟨rfl, rfl, Deletion.apply_comm different left_fits right_fits⟩

end SvpChain.Roles
