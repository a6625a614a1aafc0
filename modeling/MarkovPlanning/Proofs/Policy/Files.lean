/-
What becomes of the files of policies.

The bytes of a text are cut into lines where the text is, so all that was said about the lines of
a file goes for the text in it, for each kind of policy (`files_settled`).
-/
import MarkovPlanning.Proofs.Policy.Map.Reader
import MarkovPlanning.Proofs.Policy.Tree.Reader
import MarkovPlanning.Proofs.Policy.Vectors.Reader
import Mathlib

namespace MarkovPlanning

/-- **Every kind of policy takes the files in its grammar for what they mean, and no others.**  A
text that parses is read, and what is read answers as the text says.  Any other text is refused
with an error that names the line at fault. -/
theorem files_settled (text : String) (states : Collection .state) (actions : Collection .action)
    (observations : Collection .observation) (span : Span) {horizon : Nat} (hpos : 0 < horizon) :
    let source := Source.ofBytes text.toUTF8.data.toList
    let lines := Text.textLines text
    Settled (PolicyMap.grammar states actions span) (PolicyMap.Meant span) lines
        (PolicyMap.read source states actions span) ∧
      Settled (VectorPolicy.grammar (α := Float) states actions span) (VectorPolicy.Meant span)
        lines (VectorPolicy.read source states actions span) ∧
      Settled (PolicyTree.grammar observations actions horizon)
        (PolicyTree.Meant observations horizon) lines
        (PolicyTree.read source actions observations horizon) := by
  intro source lines
  have hsource : source = lines.map some := Text.byteLines_toUTF8 text
  rw [hsource]
  exact ⟨PolicyMap.settled states actions span lines,
    VectorPolicy.settled states actions span lines,
    (PolicyTree.settled_grown observations actions hpos lines).imp PolicyTree.Grown.meant⟩

/-- A file that can be read in two ways: the first decision for a wet floor is made at the second
epoch, or after it was found to be wet.  The last line about it counts. -/
theorem files_settled_floor :
    let text := "# what to do\nhorizon: 2\nwet : mop # or not\n\n wet:wait\n"
    let source := Source.ofBytes text.toUTF8.data.toList
    let states := Collection.ofNames .state ["wet", "dry"]
    let actions := Collection.ofNames .action ["mop", "wait"]
    let observations := Collection.ofNames .observation ["wet", "dry"]
    0 < 2 ∧
      (∃ loaded, PolicyMap.read source states actions { epochs := 2 } = .ok loaded ∧
        loaded.get 1 (.named .state "wet") = .ok (.named .action "wait")) ∧
      ∃ loaded, PolicyTree.read source actions observations 2 = .ok loaded ∧
        loaded.get [.named .observation "wet"] = .ok (.named .action "wait") ∧
        loaded.get [.named .observation "dry"]
          = .error (.unsetHistory [.named .observation "dry"]) := by
  intro text source states actions observations
  have hlines : Text.textLines text
      = ["# what to do", "horizon: 2", "wet : mop # or not", "", " wet:wait"] := by decide +kernel
  have hparses : ∀ {ι : Type} {grammar : Grammar ι} {first second : ι}, grammar.Epoch 2 →
      grammar.Item ["wet", "mop"] first → grammar.Item ["wet", "wait"] second →
      Parses grammar (Text.textLines text) [.epoch 2, .item first, .item second] := by
    intro ι grammar first second hepoch hfirst hsecond
    have hspelt : ∀ {line : String} {record : Option Record}, Record.ofLine line = .ok record →
        Record.Spelt line record := Record.ofLine_eq_ok_iff.mp
    rw [hlines]
    refine .skip (hspelt ?_) (.take (hspelt ?_) (.epoch hepoch) (.take (hspelt ?_) (.item hfirst)
      (.skip (hspelt ?_) (.take (hspelt ?_) (.item hsecond) .nil)))) <;> decide +kernel
  have hmop : actions.find "mop" = .ok (.named .action "mop") := by decide +kernel
  have hwait : actions.find "wait" = .ok (.named .action "wait") := by decide +kernel
  obtain ⟨hmap, -, htree⟩ := files_settled text states actions observations { epochs := 2 }
    (show 0 < 2 by decide)
  refine ⟨by decide, ?_, ?_⟩
  · have hwet : states.find "wet" = .ok (.named .state "wet") := by decide +kernel
    obtain ⟨loaded, hread, hmeant⟩ := hmap.accepts
      (hparses (show 2 ≤ 2 by decide) (.mk hwet hmop) (.mk hwet hwait))
    exact ⟨loaded, hread, (hmeant.get_eq 1 _).trans (by decide +kernel)⟩
  · have hwet : observations.find "wet" = .ok (.named .observation "wet") := by decide +kernel
    have hentry : ∀ {name : String} {action : Action}, actions.find name = .ok action →
        PolicyTree.Entry observations actions 2 ["wet", name]
          ([.named .observation "wet"], action) :=
      fun haction => .mk (show ["wet"].length < 2 by decide) (.cons hwet .nil) haction
    obtain ⟨loaded, hread, hmeant⟩ := htree.accepts (hparses rfl (hentry hmop) (hentry hwait))
    exact ⟨loaded, hread, (hmeant.get_eq _).trans (by decide +kernel),
      (hmeant.get_eq _).trans (by decide +kernel)⟩

end MarkovPlanning
