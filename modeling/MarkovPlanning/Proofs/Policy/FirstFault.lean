/-
Which line a file is refused for.

A file is read in two passes: every line by itself, and then the lines one after the other by
the policy.  So a line that the policy has no use for is the first thing that is wrong with a
file, and the file is loaded if it ends before that line (`RefusedFor.use`).  A line that cannot
be read by itself is only the first one of its sort.  The policy has not looked at the lines
before it, and may have no use for one of them (`RefusedFor.spelling`).
-/
import MarkovPlanning.Proofs.Policy.Map.Reader
import MarkovPlanning.Proofs.Policy.Tree.Reader
import MarkovPlanning.Proofs.Policy.Vectors.Reader
import Mathlib

namespace MarkovPlanning

variable {ι σ : Type}

/-- The file that holds a text. -/
def Source.holding (text : String) : Source := .ofBytes text.toUTF8.data.toList

theorem Source.holding_eq (text : String) :
    holding text = (Text.textLines text).map some :=
  Text.byteLines_toUTF8 text

/-- An error names one line at most. -/
theorem Error.Blames.unique {error : Error} {number other : Nat} (h : error.Blames number)
    (h' : error.Blames other) : number = other := by
  cases h with
  | line fault => cases h' with | line _ => rfl
  | atLine fault => cases h' with | atLine _ => rfl

/-- The line that a file is refused for is one of its lines. -/
theorem Offends.within {grammar : Grammar ι} {lines : List String} {number : Nat}
    (h : Offends grammar lines number) : 1 ≤ number ∧ number ≤ lines.length := by
  cases h with
  | spelling hlines =>
      rw [hlines, List.length_append, List.length_cons]
      omega
  | use hlines =>
      rw [hlines, List.length_append, List.length_cons]
      omega

/-! ### Refusals -/

/-- What it says about a text that a reader refuses it for one of its lines. -/
inductive RefusedFor (read : Source → Except Error σ) (text : String) : Error → Nat → Prop
  /-- The line can be read by itself, and what comes before it can be loaded. -/
  | use {before after : List String} {line : String} {record : Record} {loaded : σ}
      {error : Error} :
      Text.textLines text = before ++ line :: after →
      (∀ earlier ∈ before, ∃ record, Record.Spelt earlier record) →
      Record.Spelt line (some record) →
      read (.holding (Text.firstLines before.length text)) = .ok loaded →
      RefusedFor read text error (before.length + 1)
  /-- The line cannot be read by itself, though all lines before it can.  What comes before it can
  be loaded, or else is refused for one of its own lines. -/
  | spelling {before after : List String} {line : String} {fault : LineFault} :
      Text.textLines text = before ++ line :: after →
      (∀ earlier ∈ before, ∃ record, Record.Spelt earlier record) →
      (∀ record, ¬Record.Spelt line record) →
      ((∃ loaded, read (.holding (Text.firstLines before.length text)) = .ok loaded) ∨
        ∃ error number, read (.holding (Text.firstLines before.length text)) = .error error ∧
          error.Blames number ∧ 1 ≤ number ∧ number ≤ before.length) →
      RefusedFor read text (.line (before.length + 1) fault) (before.length + 1)

/-- The text before a line holds the lines before it. -/
theorem Source.holding_firstLines {text line : String} {before after : List String}
    (h : Text.textLines text = before ++ line :: after) :
    holding (Text.firstLines before.length text) = before.map some := by
  rw [holding_eq, textLines_firstLines, h, List.take_left]

variable {grammar : Grammar ι} {Means : List (Said ι) → σ → Prop} {text : String} {error : Error}
  {number : Nat}

/-- **A reader that reads all lines by themselves before it looks at any of them** refuses a text
for the first line without a use, unless there is a line that cannot be read. -/
theorem Settled.refusedFor {read : Source → Except Error σ} {next : List Line → Except Error σ}
    (hsettled : ∀ lines, Settled grammar Means lines (read (lines.map some)))
    (hpasses : ∀ source, read source = source.read >>= next)
    (hread : read (.holding text) = .error error) (hblames : error.Blames number) :
    RefusedFor read text error number := by
  rw [Source.holding_eq] at hread
  have hparses : ∀ said, ¬Parses grammar (Text.textLines text) said := by
    intro said hsaid
    obtain ⟨loaded, hloaded, -⟩ := (hsettled _).accepts hsaid
    cases hread.symm.trans hloaded
  obtain ⟨error', number', herror, hoffends, hblames'⟩ := (hsettled _).refuses hparses
  obtain rfl := Except.error.inj (hread.symm.trans herror)
  obtain rfl := hblames.unique hblames'
  cases hoffends with
  | @use before after line said record hlines hspelt hsaid hrecord hadmits =>
      obtain ⟨loaded, hloaded, -⟩ := (hsettled before).accepts hsaid
      rw [← Source.holding_firstLines hlines] at hloaded
      exact .use hlines hsaid.spelt hrecord hloaded
  | @spelling before after line hlines hbefore hline =>
      obtain ⟨fault, hfault⟩ := Record.exists_fault hline
      have hreported : read ((Text.textLines text).map some)
          = .error (.line (before.length + 1) fault) := by
        rw [hlines, hpasses, Source.read_eq_fault after hbefore hfault]
        rfl
      obtain rfl := Except.error.inj (hread.symm.trans hreported)
      refine .spelling hlines hbefore hline ?_
      rw [Source.holding_firstLines hlines]
      by_cases hsays : ∃ said, Parses grammar before said
      · obtain ⟨said, hsaid⟩ := hsays
        obtain ⟨loaded, hloaded, -⟩ := (hsettled before).accepts hsaid
        exact .inl ⟨loaded, hloaded⟩
      · obtain ⟨error, number, herror, hoffends, hblames⟩ :=
          (hsettled before).refuses (not_exists.mp hsays)
        exact .inr ⟨error, number, herror, hblames, hoffends.within⟩

/-! ### Policies -/

/-- Which error there is can be told without what would have been loaded. -/
theorem error_of_map_unit {result : Except Error σ}
    (h : result.map (fun _ => ()) = .error error) : result = .error error := by
  cases result with
  | ok loaded => cases h
  | error other => exact congrArg Except.error (Except.error.inj h)

/-- Without a decision there is no tree, whatever the file says. -/
theorem PolicyTree.read_zero {observations : Collection .observation}
    {actions : Collection .action} (source : Source) :
    PolicyTree.read source actions observations 0 = .error (.definition .noDecisions) := rfl

/-- **Which line a file is refused for**, for every kind of policy. -/
theorem refused_for_line (text : String) (states : Collection .state)
    (actions : Collection .action) (observations : Collection .observation) (span : Span)
    (horizon : Nat) {error : Error} {number : Nat} (hblames : error.Blames number) :
    (PolicyMap.read (.holding text) states actions span = .error error →
      RefusedFor (PolicyMap.read · states actions span) text error number) ∧
    (VectorPolicy.read (α := Float) (.holding text) states actions span = .error error →
      RefusedFor (VectorPolicy.read (α := Float) · states actions span) text error number) ∧
    (PolicyTree.read (.holding text) actions observations horizon = .error error →
      RefusedFor (PolicyTree.read · actions observations horizon) text error number) := by
  refine ⟨?_, ?_, ?_⟩
  · intro hread
    exact Settled.refusedFor (PolicyMap.settled states actions span) (fun _ => rfl) hread hblames
  · intro hread
    exact Settled.refusedFor (VectorPolicy.settled states actions span) (fun _ => rfl) hread
      hblames
  · intro hread
    cases horizon with
    | zero =>
        rw [PolicyTree.read_zero] at hread
        obtain rfl := Except.error.inj hread
        cases hblames
    | succ depth =>
        exact Settled.refusedFor
          (PolicyTree.settled_grown observations actions (Nat.succ_pos depth))
          (fun _ => rfl) hread hblames

/-- Every kind of policy refuses the second line for the number in it. -/
theorem refused_for_line_bank :
    let text := "bank : go\nhorizon: 0\n"
    let states := Collection.ofNames .state ["bank"]
    let actions := Collection.ofNames .action ["go"]
    let observations := Collection.ofNames .observation ["bank"]
    let error := Error.line 2 .horizonZero
    error.Blames 2 ∧
      RefusedFor (PolicyMap.read · states actions { epochs := 1 }) text error 2 ∧
      RefusedFor (VectorPolicy.read (α := Float) · states actions { epochs := 1 }) text error 2 ∧
      RefusedFor (PolicyTree.read · actions observations 2) text error 2 := by
  intro text states actions observations error
  have hblames : error.Blames 2 := .line .horizonZero
  obtain ⟨hmap, hvectors, htree⟩ := refused_for_line text states actions observations
    { epochs := 1 } 2 hblames
  exact ⟨hblames, hmap rfl, hvectors rfl, htree rfl⟩

/-- The second line is refused for the number in it, though there is no bridge to go to and a
vector has a value for every state. -/
theorem refused_for_later_line :
    let text := "bridge : go\nhorizon: 0\n"
    let states := Collection.ofNames .state ["bank"]
    let actions := Collection.ofNames .action ["go"]
    let observations := Collection.ofNames .observation ["fog"]
    let zero := Error.line 2 .horizonZero
    (PolicyMap.read (.holding text) states actions { epochs := 1 } = .error zero ∧
      PolicyMap.read (.holding (Text.firstLines 1 text)) states actions { epochs := 1 }
        = .error (.atLine 1 (.notFound .state "bridge"))) ∧
    (VectorPolicy.read (α := Float) (.holding text) states actions { epochs := 1 }
        = .error zero ∧
      VectorPolicy.read (α := Float) (.holding (Text.firstLines 1 text)) states actions
        { epochs := 1 } = .error (.line 1 .vectorForm)) ∧
    PolicyTree.read (.holding text) actions observations 2 = .error zero ∧
      PolicyTree.read (.holding (Text.firstLines 1 text)) actions observations 2
        = .error (.atLine 1 (.notFound .observation "bridge")) := by
  intro text states actions observations zero
  refine ⟨⟨rfl, ?_⟩, ⟨rfl, ?_⟩, rfl, ?_⟩
  · exact error_of_map_unit (by decide +kernel)
  · exact error_of_map_unit (by decide +kernel)
  · exact error_of_map_unit (by decide +kernel)

end MarkovPlanning
