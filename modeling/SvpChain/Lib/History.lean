import Mathlib.Data.List.Infix

/-!
# Histories

A history lists what has happened, the latest first.  A rule for an entry may speak of the entries
before it; `Throughout` says that every entry kept to a rule at its time.
-/

namespace SvpChain.History

variable {α : Type*} {holds holds' : List α → α → Prop} {history history' : List α}

/-- Every entry keeps to a rule, given the entries before it. -/
def Throughout (holds : List α → α → Prop) (history : List α) : Prop :=
  ∀ event earlier, event :: earlier <:+ history → holds earlier event

theorem throughout_nil : Throughout holds [] := fun _ _ part =>
  absurd (List.suffix_nil.mp part) (List.cons_ne_nil _ _)

theorem throughout_cons {last : α} :
    Throughout holds (last :: history) ↔ holds history last ∧ Throughout holds history := by
  constructor
  · intro kept
    exact ⟨kept last history List.suffix_rfl,
      fun event earlier part => kept event earlier (part.trans (List.suffix_cons _ _))⟩
  · rintro ⟨own, rest⟩ event earlier part
    rcases List.suffix_cons_iff.mp part with same | inside
    · obtain ⟨rfl, rfl⟩ := List.cons_eq_cons.mp same
      exact own
    · exact rest event earlier inside

instance decidableThroughout [∀ earlier event, Decidable (holds earlier event)] :
    (history : List α) → Decidable (Throughout holds history)
  | [] => .isTrue throughout_nil
  | _ :: history =>
      have : Decidable (Throughout holds history) := decidableThroughout history
      decidable_of_iff _ throughout_cons.symm

theorem Throughout.of_suffix (kept : Throughout holds history') (part : history <:+ history') :
    Throughout holds history :=
  fun event earlier inside => kept event earlier (inside.trans part)

theorem Throughout.of_mem (kept : Throughout holds history) {event : α} (mem : event ∈ history) :
    ∃ earlier, event :: earlier <:+ history ∧ holds earlier event := by
  obtain ⟨later, earlier, rfl⟩ := List.append_of_mem mem
  have part : event :: earlier <:+ later ++ event :: earlier := List.suffix_append _ _
  exact ⟨earlier, part, kept event earlier part⟩

end SvpChain.History
