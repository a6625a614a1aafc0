/-
Policy maps with any names.

The line of an entry has two tokens unless it is refused, so colons in its names do no harm.
What may be found under its names is another state or another action, or the names may say to
move on to an epoch.  If there is nothing of that kind (`Unmistakable`), the line can say the
entry and nothing else, and what is loaded is the policy that was saved (`eq_reset_of_read`).
-/
import MarkovPlanning.Proofs.Policy.Map.Script
import MarkovPlanning.Proofs.Policy.Raw
import Mathlib

namespace MarkovPlanning.PolicyMap

variable {policy policy' : PolicyMap} {states : Collection .state} {actions : Collection .action}
  {span : Span} {said : List (Said (State × Action))}

/-! ### What a file says -/

/-- What was said determines the policy. -/
theorem Meant.unique (h : Meant span said policy) (h' : Meant span said policy') :
    policy = policy' := by
  have hget : ∀ epoch state, policy.get epoch state = policy'.get epoch state :=
    fun epoch state => (h.get_eq epoch state).trans (h'.get_eq epoch state).symm
  obtain ⟨span₁, epochs, cursor⟩ := policy
  obtain ⟨span₂, epochs', cursor'⟩ := policy'
  obtain rfl : span₁ = span := h.span_eq
  obtain rfl : span₂ = span₁ := h'.span_eq
  obtain rfl : cursor = 0 := h.cursor_eq
  obtain rfl : cursor' = 0 := h'.cursor_eq
  have hepochs : epochs = epochs' := by
    refine Vector.ext fun epoch hepoch => Std.ExtTreeMap.ext_getElem? fun state =>
      Option.ext fun action => ?_
    have hfirst : get { span := span₂, epochs } epoch state = .ok action
        ↔ epochs[epoch][state]? = some action := get_eq_ok_iff hepoch
    have hsecond : get { span := span₂, epochs := epochs' } epoch state = .ok action
        ↔ epochs'[epoch][state]? = some action := get_eq_ok_iff hepoch
    rw [← hfirst, ← hsecond, hget]
  rw [hepochs]

/-- What is said by the file of a policy. -/
def written (policy : PolicyMap) : List (Said (State × Action)) :=
  slotSaid policy.span.isFinite (fun mapping => mapping.toList) id policy.epochs.toList 0

/-- A policy is meant by what its file says. -/
theorem meant_written (policy : PolicyMap) : Meant policy.span policy.written policy.reset := by
  refine meant_of_mapped policy.reset rfl fun epoch hepoch state => ?_
  rw [written, about_slotSaid policy.epochs hepoch, List.map_id]
  exact (lastOf_eq_of_mem_iff
    (fun _ _ => Std.ExtTreeMap.mem_toList_iff_getElem?_eq_some) state).symm

/-! ### What is loaded -/

/-- An entry that cannot be mistaken for anything else: its names neither end its line nor start
a comment, nothing else is found under them, and they are not read as an epoch to move on to. -/
structure Unmistakable (states : Collection .state) (actions : Collection .action) (span : Span)
    (state : State) (action : Action) : Prop where
  state_unmarked : Unmarked state.name
  action_unmarked : Unmarked action.name
  find_state : ∀ other, states.find (bareName state.name) = .ok other → other = state
  find_action : ∀ other, actions.find (bareName action.name) = .ok other → other = action
  epoch : bareName state.name = horizonToken → ∀ number, 0 < number → number ≤ span.slots →
    ¬Decimal.Counts (bareName action.name) number

/-- An entry that comes back from a file cannot be mistaken. -/
theorem Writable.unmistakable {state : State} {action : Action}
    (h : Writable states actions state action) (span : Span) :
    Unmistakable states actions span state action where
  state_unmarked := h.state_token.unmarked
  action_unmarked := h.action_token.unmarked
  find_state _ := Collection.eq_of_find_bareName h.state_token h.find_state
  find_action _ := Collection.eq_of_find_bareName h.action_token h.find_action
  epoch hstate := absurd (h.state_token.bareName_eq.symm.trans hstate) h.state_horizon

/-- **The line of an entry can say nothing but the entry.** -/
theorem Unmistakable.only {entry : State × Action}
    (h : Unmistakable states actions span entry.1 entry.2) :
    Only (grammar states actions span) (writeTokens (entryTokens entry)) (.item entry) := by
  obtain ⟨state, action⟩ := entry
  have hmark : ∀ name ∈ entryTokens (state, action), '#' ∉ name.toList := by
    simpa [entryTokens] using ⟨h.state_unmarked.comment, h.action_unmarked.comment⟩
  have hne : entryTokens (state, action) ≠ [] := List.cons_ne_nil _ _
  refine ⟨fun hnone => ?_, fun record said hrecord hadmits => ?_⟩
  · obtain ⟨name, hname, -⟩ := hnone.blank_of_none hne hmark
    simp [entryTokens] at hname
  · have hwidth : record.width = 2 := by
      cases hadmits with
      | epoch _ => rfl
      | item hitem => cases hitem; rfl
    rcases hrecord.of_writeTokens hne hmark (hrecord.notMem_colon hmark hwidth) with
      rfl | ⟨token, number, rfl, hnumber, hpos, htokens⟩
    · cases hadmits with
      | item hitem =>
          cases hitem with
          | mk hstate haction => rw [h.find_state _ hstate, h.find_action _ haction]
    · obtain ⟨hstate, rfl⟩ : bareName state.name = horizonToken ∧ bareName action.name = token := by
        simpa [entryTokens] using htokens
      cases hadmits with
      | epoch hepoch => exact absurd hnumber (h.epoch hstate number hpos hepoch)

/-- **What is loaded from the file of a policy without mistakable entries is the policy.** -/
theorem eq_reset_of_read (h : ∀ mapping ∈ policy.epochs.toList, ∀ entry ∈ mapping.toList,
      Unmistakable states actions policy.span entry.1 entry.2) {loaded : PolicyMap}
    (hread : PolicyMap.read (.ofBytes policy.write.toUTF8.data.toList) states actions policy.span
      = .ok loaded) : loaded = policy.reset := by
  have hfeed : ∀ mapping ∈ policy.epochs.toList, ∀ entry ∈ mapping.toList,
      '\n' ∉ (writeTokens (entryTokens entry)).toList := by
    intro mapping hmapping entry hentry
    obtain ⟨hstate, haction, -⟩ := h mapping hmapping entry hentry
    exact notMem_writeTokens (by decide) (by decide)
      (by simpa [entryTokens] using ⟨hstate.feed, haction.feed⟩)
  have hsettled := settled states actions policy.span (Text.textLines policy.write)
  rw [Source.ofBytes, Text.byteLines_toUTF8] at hread
  rw [hread] at hsettled
  have hmeant := hsettled.means_of_only (Record.ofLine_eq_ok_iff.mp rfl)
    (List.forall_mem_cons.mpr ⟨by decide, notMem_slotLines hfeed⟩)
    (only_slotLines fun mapping hmapping entry hentry => (h mapping hmapping entry hentry).only)
  exact hmeant.unique policy.meant_written

end MarkovPlanning.PolicyMap
