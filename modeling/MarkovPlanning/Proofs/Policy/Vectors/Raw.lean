/-
Vector policies with any names.

A colon in a name makes more tokens, and with an even number of them a line may still be one of
a vector, so names must do without.  A vector has an odd number of tokens and is never taken for
a line that moves on to an epoch, but a vector of a blank action and nothing else is not seen at
all.  If no other action or state is found under the names either (`Unmistakable`), the line can
say the vector and nothing else, and what is loaded is the policy that was saved
(`eq_reset_of_read`).
-/
import MarkovPlanning.Proofs.Policy.Raw
import MarkovPlanning.Proofs.Policy.Vectors.Script
import Mathlib

namespace MarkovPlanning.VectorPolicy

variable {α : Type} {policy policy' : VectorPolicy α} {alpha beta : AlphaVector α}
  {states : Collection .state} {actions : Collection .action} {span : Span}
  {said : List (Said (Action × List (State × α)))}

/-! ### What a file says -/

/-- What a line tells determines the vector. -/
theorem Tells.unique {item : Action × List (State × α)} (h : Tells item alpha)
    (h' : Tells item beta) : alpha = beta := by
  obtain ⟨action, values⟩ := alpha
  obtain ⟨action', values'⟩ := beta
  obtain rfl : action = action' := h.action_eq.trans h'.action_eq.symm
  have hvalues : values = values' := Std.ExtTreeMap.ext_getElem? fun state =>
    (h.values_eq state).trans (h'.values_eq state).symm
  rw [hvalues]

theorem Tells.unique_list {items : List (Action × List (State × α))}
    {gamma gamma' : List (AlphaVector α)} (h : List.Forall₂ Tells items gamma)
    (h' : List.Forall₂ Tells items gamma') : gamma = gamma' := by
  induction h generalizing gamma' with
  | nil =>
      cases h'
      rfl
  | cons halpha _ ih =>
      cases h' with
      | cons hbeta hrest => rw [halpha.unique hbeta, ih hrest]

/-- What was said determines the policy. -/
theorem Meant.unique (h : Meant span said policy) (h' : Meant span said policy') :
    policy = policy' := by
  have hgamma : ∀ epoch, epoch < span.slots → policy.gamma epoch = policy'.gamma epoch := by
    intro epoch hepoch
    obtain ⟨gamma, hgamma, htells⟩ := h.gamma_eq epoch hepoch
    obtain ⟨gamma', hgamma', htells'⟩ := h'.gamma_eq epoch hepoch
    rw [hgamma, hgamma', Tells.unique_list htells htells']
  obtain ⟨span₁, gammas, cursor⟩ := policy
  obtain ⟨span₂, gammas', cursor'⟩ := policy'
  obtain rfl : span₁ = span := h.span_eq
  obtain rfl : span₂ = span₁ := h'.span_eq
  obtain rfl : cursor = 0 := h.cursor_eq
  obtain rfl : cursor' = 0 := h'.cursor_eq
  have hgammas : gammas = gammas' := by
    refine Vector.ext fun epoch hepoch => ?_
    have hfirst : gamma { span := span₂, gammas } epoch = .ok gammas[epoch] := dif_pos hepoch
    have hsecond : gamma { span := span₂, gammas := gammas' } epoch = .ok gammas'[epoch] :=
      dif_pos hepoch
    exact Except.ok.inj (hfirst.symm.trans ((hgamma epoch hepoch).trans hsecond))
  rw [hgammas]

/-- What is said by the file of a policy. -/
def written (policy : VectorPolicy α) : List (Said (Action × List (State × α))) :=
  slotSaid policy.span.isFinite id (fun alpha => (alpha.action, alpha.toList))
    policy.gammas.toList 0

/-- A policy is meant by what its file says. -/
theorem meant_written (policy : VectorPolicy α) :
    Meant policy.span policy.written policy.reset := by
  refine meant_of_tells policy.reset rfl fun epoch hepoch => ?_
  rw [written, about_slotSaid policy.gammas hepoch, List.forall₂_map_left_iff, id_eq]
  refine List.forall₂_same.mpr fun alpha _ => ⟨rfl, fun state => ?_⟩
  exact (lastOf_eq_of_mem_iff
    (fun _ _ => Std.ExtTreeMap.mem_toList_iff_getElem?_eq_some) state).symm

/-! ### What is loaded -/

/-- A vector that cannot be mistaken for anything else: its names neither end its line nor start
a comment, there are no colons in them, and nothing else is found under them.  An action by itself
is not blank. -/
structure Unmistakable (states : Collection .state) (actions : Collection .action)
    (alpha : AlphaVector α) : Prop where
  unmarked : ∀ name ∈ alpha.action.name :: alpha.toList.map (·.1.name), Unmarked name
  colon : ∀ name ∈ alpha.action.name :: alpha.toList.map (·.1.name), ':' ∉ name.toList
  find_action : ∀ other, actions.find (bareName alpha.action.name) = .ok other →
    other = alpha.action
  find_state : ∀ entry ∈ alpha.toList, ∀ other,
    states.find (bareName entry.1.name) = .ok other → other = entry.1
  alone : alpha.toList = [] → bareName alpha.action.name ≠ ""

/-- A vector that comes back from a file cannot be mistaken. -/
theorem Writable.unmistakable (h : Writable states actions alpha) :
    Unmistakable states actions alpha := by
  have htoken : ∀ name ∈ alpha.action.name :: alpha.toList.map (·.1.name), IsToken name := by
    refine List.forall_mem_cons.mpr ⟨h.action_token, fun name hname => ?_⟩
    obtain ⟨entry, hentry, rfl⟩ := List.mem_map.mp hname
    exact h.state_token entry hentry
  exact {
    unmarked := fun name hname => (htoken name hname).unmarked
    colon := fun name hname => (htoken name hname).colon
    find_action := fun _ => Collection.eq_of_find_bareName h.action_token h.find_action
    find_state := fun entry hentry _ =>
      Collection.eq_of_find_bareName (h.state_token entry hentry) (h.find_state entry hentry)
    alone := fun _ hblank =>
      h.action_token.nonempty (h.action_token.bareName_eq.symm.trans hblank) }

variable [Numeral α]

/-- Every token of a vector is one of its names or a numeral. -/
theorem forall_mem_vectorTokens {P : String → Prop}
    (hnames : ∀ name ∈ alpha.action.name :: alpha.toList.map (·.1.name), P name)
    (hvalues : ∀ entry ∈ alpha.toList, P (Numeral.write entry.2)) :
    ∀ token ∈ vectorTokens alpha, P token := by
  intro token htoken
  rcases List.mem_cons.mp htoken with rfl | htoken
  · exact hnames _ List.mem_cons_self
  · obtain ⟨entry, hentry, htoken⟩ := List.mem_flatMap.mp htoken
    rcases List.mem_cons.mp htoken with rfl | htoken
    · exact hnames _ (List.mem_cons_of_mem _ (List.mem_map.mpr ⟨entry, hentry, rfl⟩))
    · obtain rfl := List.mem_singleton.mp htoken
      exact hvalues entry hentry

theorem length_pairTokens (pairs : List (State × α)) :
    (pairTokens pairs).length = 2 * pairs.length := by
  simp [pairTokens, Nat.mul_comm]

/-- If nothing else is found under the names of states, they are told with their values. -/
theorem Pairs.eq_of_bareName {pairs told : List (State × α)}
    (h : Pairs states ((pairTokens pairs).map bareName) told)
    (hfind : ∀ pair ∈ pairs, ∀ other, states.find (bareName pair.1.name) = .ok other →
      other = pair.1)
    (hvalues : ∀ pair ∈ pairs, Legible pair.2) : told = pairs := by
  induction pairs generalizing told with
  | nil =>
      cases h
      rfl
  | cons pair pairs ih =>
      have hlegible := hvalues pair List.mem_cons_self
      rw [pairTokens, List.flatMap_cons, ← pairTokens] at h
      cases h with
      | cons hstate hvalue hpairs =>
          rw [hlegible.token.bareName_eq, hlegible.read] at hvalue
          obtain rfl := Option.some.inj hvalue
          obtain rfl := hfind pair List.mem_cons_self _ hstate
          rw [ih hpairs (fun later hlater => hfind later (List.mem_cons_of_mem _ hlater))
            fun later hlater => hvalues later (List.mem_cons_of_mem _ hlater)]

/-- **The line of a vector can say nothing but the vector.** -/
theorem Unmistakable.only (h : Unmistakable states actions alpha)
    (hvalues : ∀ entry ∈ alpha.toList, Legible entry.2) :
    Only (grammar states actions span) (writeTokens (vectorTokens alpha))
      (.item (alpha.action, alpha.toList)) := by
  have hmark : ∀ name ∈ vectorTokens alpha, '#' ∉ name.toList :=
    forall_mem_vectorTokens (fun name hname => (h.unmarked name hname).comment)
      fun entry hentry => (hvalues entry hentry).token.comment
  have hcolon : ∀ name ∈ vectorTokens alpha, ':' ∉ name.toList :=
    forall_mem_vectorTokens h.colon fun entry hentry => (hvalues entry hentry).token.colon
  have hne : vectorTokens alpha ≠ [] := List.cons_ne_nil _ _
  have hlength := length_pairTokens alpha.toList
  refine ⟨fun hnone => ?_, fun record said hrecord hadmits => ?_⟩
  · obtain ⟨name, hname, hblank⟩ := hnone.blank_of_none hne hmark
    obtain ⟨rfl, hpairs⟩ := List.cons.inj hname
    rw [hpairs] at hlength
    refine h.alone (List.length_eq_zero_iff.mp ?_) hblank
    rw [List.length_nil] at hlength
    omega
  · rcases hrecord.of_writeTokens hne hmark hcolon with
      rfl | ⟨token, number, rfl, -, -, htokens⟩
    · cases hadmits with
      | item hitem =>
          cases hitem with
          | mk haction hpairs =>
              rw [h.find_action _ haction, hpairs.eq_of_bareName h.find_state hvalues]
    · -- there is an odd number of tokens
      have hcount := congrArg List.length htokens
      rw [List.length_map, vectorTokens, List.length_cons, hlength] at hcount
      simp only [List.length_cons, List.length_nil] at hcount
      omega

/-- **What is loaded from the file of a policy without mistakable vectors is the policy.** -/
theorem eq_reset_of_read
    (h : ∀ gamma ∈ policy.gammas.toList, ∀ alpha ∈ gamma, Unmistakable states actions alpha)
    (hvalues : ∀ gamma ∈ policy.gammas.toList, ∀ alpha ∈ gamma, ∀ entry ∈ alpha.toList,
      Legible entry.2) {loaded : VectorPolicy α}
    (hread : VectorPolicy.read (.ofBytes policy.write.toUTF8.data.toList) states actions
      policy.span = .ok loaded) : loaded = policy.reset := by
  have hfeed : ∀ gamma ∈ policy.gammas.toList, ∀ alpha ∈ gamma,
      '\n' ∉ (writeTokens (vectorTokens alpha)).toList := by
    intro gamma hgamma alpha halpha
    refine notMem_writeTokens (by decide) (by decide) (forall_mem_vectorTokens ?_ ?_)
    · exact fun name hname => ((h gamma hgamma alpha halpha).unmarked name hname).feed
    · exact fun entry hentry => (hvalues gamma hgamma alpha halpha entry hentry).token.feed
  have hsettled := settled (α := α) states actions policy.span (Text.textLines policy.write)
  rw [Source.ofBytes, Text.byteLines_toUTF8] at hread
  rw [hread] at hsettled
  have hmeant := hsettled.means_of_only (Record.ofLine_eq_ok_iff.mp rfl)
    (List.forall_mem_cons.mpr ⟨by decide, notMem_slotLines hfeed⟩)
    (only_slotLines fun gamma hgamma alpha halpha =>
      (h gamma hgamma alpha halpha).only (hvalues gamma hgamma alpha halpha))
  exact hmeant.unique policy.meant_written

end MarkovPlanning.VectorPolicy
