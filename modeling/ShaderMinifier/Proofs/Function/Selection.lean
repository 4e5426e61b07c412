import ShaderMinifier.Proofs.Function.Live

/-
  Dead functions and what the preprocessor selects. A preprocessor takes at most one branch of
  each conditional; what it takes depends on macros that are not known. Dropping dead functions
  drops them from what is selected, whatever is selected, and a function that can be reached there
  can be reached when the calls of all branches are taken together.
-/

namespace ShaderMinifier

/-- Which branch is taken of a conditional, if one is. Conditionals are told apart by their address:
their number in their row, then, from the inside out, the number of the branch and of the
conditional that they are in. A `Choice` stands for any preprocessor. -/
abbrev Choice : Type := List Nat → Option Nat

namespace Item

mutual

/-- The items that `choice` selects from a row at some address, where the next conditional of the
row has this number. -/
def selectList (choice : Choice) (address : List Nat) (number : Nat) : List Item → List Item
  | [] => []
  | .conditional _ _ body rest :: items =>
    (if choice (number :: address) = some 0 then selectList choice (0 :: number :: address) 0 body
      else []) ++ selectBranches choice (number :: address) 1 rest ++
      selectList choice address (number + 1) items
  | item :: items => item :: selectList choice address number items

/-- The items that `choice` selects from the branches of the conditional at some address, from one
number on. -/
def selectBranches (choice : Choice) (address : List Nat) (number : Nat) : Branches → List Item
  | .done => []
  | .otherwise body =>
    if choice address = some number then selectList choice (number :: address) 0 body else []
  | .elif _ body rest =>
    (if choice address = some number then selectList choice (number :: address) 0 body else []) ++
      selectBranches choice address (number + 1) rest

end

/-- The item neither defines nor declares a function, so it has no `signature?`. -/
def isOther (item : Item) : Bool := item.signature?.isNone

/-- Calls in a row of items lead from a definition of `main` to the function; `Shader.Reached` for
what was selected. -/
inductive Reaches (items : List Item) : FunctionKey → Prop
  | main {signature : Prototype} {body : List Statement} (hitem : .function signature body ∈ items)
      (hname : signature.name = "main") : Reaches items (.ofPrototype signature)
  | call {signature : Prototype} {body : List Statement} {key : FunctionKey}
      (hitem : .function signature body ∈ items)
      (hcaller : Reaches items (.ofPrototype signature))
      (hcall : key ∈ CallGraph.callees (.function signature body)) : Reaches items key

variable {keep : FunctionKey → Bool} {choice : Choice}

theorem selectList_cons {item : Item} (h : item.isConditional = false) (address : List Nat)
    (number : Nat) (items : List Item) :
    selectList choice address number (item :: items) =
      item :: selectList choice address number items := by
  cases item with
  | conditional _ _ _ _ => cases h
  | directive _ | precision _ _ | invariant _ | declaration _ | prototype _ | function _ _ =>
    rw [selectList]
    simp

theorem selectList_retainList_cons {item : Item} (h : item.isConditional = false)
    {address : List Nat} {number : Nat} {items : List Item}
    (hitems : selectList choice address number (retainList keep items) =
      (selectList choice address number items).filter (isRetained keep)) :
    selectList choice address number (retainList keep (item :: items)) =
      (selectList choice address number (item :: items)).filter (isRetained keep) := by
  rw [retainList_cons h, selectList_cons h, List.filter_cons, ← hitems]
  split
  · rw [selectList_cons h]
  · rfl

mutual

theorem selectList_retainList (address : List Nat) (number : Nat) : (items : List Item) →
    selectList choice address number (retainList keep items) =
      (selectList choice address number items).filter (isRetained keep)
  | [] => by simp only [retainList, selectList, List.filter_nil]
  | .conditional _ _ body rest :: items => by
    simp only [retainList, selectList, List.filter_append, apply_ite (List.filter _),
      List.filter_nil, selectList_retainList _ _ body, selectBranches_retainBranches _ _ rest,
      selectList_retainList _ _ items]
  | .directive _ :: items | .precision _ _ :: items | .invariant _ :: items
  | .declaration _ :: items | .prototype _ :: items | .function _ _ :: items =>
    selectList_retainList_cons rfl (selectList_retainList _ _ items)

theorem selectBranches_retainBranches (address : List Nat) (number : Nat) : (rest : Branches) →
    selectBranches choice address number (retainBranches keep rest) =
      (selectBranches choice address number rest).filter (isRetained keep)
  | .done => by simp only [retainBranches, selectBranches, List.filter_nil]
  | .otherwise body => by
    simp only [retainBranches, selectBranches, apply_ite (List.filter _), List.filter_nil,
      selectList_retainList _ _ body]
  | .elif _ body rest => by
    simp only [retainBranches, selectBranches, List.filter_append, apply_ite (List.filter _),
      List.filter_nil, selectList_retainList _ _ body, selectBranches_retainBranches _ _ rest]

end

mutual

theorem selectList_subset (address : List Nat) (number : Nat) : (items : List Item) →
    selectList choice address number items ⊆ listLeaves items
  | [] => by simp only [selectList, List.nil_subset]
  | .conditional _ _ body rest :: items => by
    simp only [selectList, listLeaves, leaves]
    refine List.append_subset.2 ⟨List.append_subset.2 ⟨?_, ?_⟩, ?_⟩
    · split
      · exact fun item hitem => by simp [selectList_subset _ _ body hitem]
      · exact List.nil_subset _
    · exact fun item hitem => by simp [selectBranches_subset _ _ rest hitem]
    · exact fun item hitem => by simp [selectList_subset _ _ items hitem]
  | .directive _ :: items | .precision _ _ :: items | .invariant _ :: items
  | .declaration _ :: items | .prototype _ :: items | .function _ _ :: items => by
    rw [selectList_cons rfl, listLeaves, leaves_eq_singleton rfl, List.singleton_append]
    exact List.cons_subset_cons _ (selectList_subset _ _ items)

theorem selectBranches_subset (address : List Nat) (number : Nat) : (rest : Branches) →
    selectBranches choice address number rest ⊆ branchLeaves rest
  | .done => by simp only [selectBranches, List.nil_subset]
  | .otherwise body => by
    simp only [selectBranches, branchLeaves]
    split
    · exact selectList_subset _ _ body
    · exact List.nil_subset _
  | .elif _ body rest => by
    simp only [selectBranches, branchLeaves]
    refine List.append_subset.2 ⟨?_, ?_⟩
    · split
      · exact fun item hitem => by simp [selectList_subset _ _ body hitem]
      · exact List.nil_subset _
    · exact fun item hitem => by simp [selectBranches_subset _ _ rest hitem]

end

theorem isRetained_of_isOther {item : Item} (h : item.isOther = true) :
    item.isRetained keep = true := by
  rw [isOther, Option.isNone_iff_eq_none] at h
  rw [isRetained, h, Option.all_none]

theorem filter_isOther_filter_isRetained (items : List Item) :
    (items.filter (isRetained keep)).filter isOther = items.filter isOther := by
  rw [List.filter_filter]
  refine List.filter_congr fun item _ => ?_
  cases hother : item.isOther with
  | true => rw [isRetained_of_isOther hother, Bool.and_true]
  | false => rw [Bool.false_and]

end Item

namespace Shader

variable {shader : Shader} {choice : Choice}

/-- The items of a shader that `choice` selects, with no conditionals left. -/
def select (choice : Choice) (shader : Shader) : List Item :=
  Item.selectList choice [] 0 shader.items

theorem select_removeDead (shader : Shader) (choice : Choice) :
    shader.removeDead.select choice =
      (shader.select choice).filter (Item.isRetained (isKept shader.liveFunctions)) :=
  Item.selectList_retainList [] 0 shader.items

theorem select_subset (shader : Shader) (choice : Choice) :
    shader.select choice ⊆ shader.leaves :=
  Item.selectList_subset [] 0 shader.items

theorem reached_of_reaches {key : FunctionKey} (h : Item.Reaches (shader.select choice) key) :
    shader.Reached key := by
  induction h with
  | main hitem hname => exact .main (shader.select_subset choice hitem) hname
  | call hitem _ hcall ih => exact .call (shader.select_subset choice hitem) ih hcall

/-- How much is left of the items that are selected, after `removeDead`. -/
structure KeepsSelected (before after : List Item) : Prop where
  /-- Nothing is changed, moved or made up: what is left is a `Sublist`. -/
  sublist : after.Sublist before
  /-- Every definition, and every prototype, of a function that main `Reaches` is there. -/
  reached : ∀ item ∈ before, ∀ signature, item.signature? = some signature →
    Item.Reaches before (.ofPrototype signature) → item ∈ after
  /-- All that is no function (`isOther`) is there, in the same order. -/
  others : after.filter Item.isOther = before.filter Item.isOther

theorem keepsSelected_removeDead (shader : Shader) (choice : Choice) :
    KeepsSelected (shader.select choice) (shader.removeDead.select choice) where
  sublist := by
    rw [select_removeDead]
    exact List.filter_sublist
  reached := by
    intro item hitem signature hsignature hreached
    rw [select_removeDead, List.mem_filter]
    have hkept := isKept_iff.2 (.inl (reached_of_reaches hreached))
    exact ⟨hitem, by simpa [Item.isRetained, hsignature] using hkept⟩
  others := by rw [select_removeDead, Item.filter_isOther_filter_isRetained]

end Shader

namespace Program

variable {program result : Program}

/-- `removeDeadFunctions` keeps, whatever the preprocessor selects (`Choice`), every function that
can be reached in what is selected, and all else that is selected but functions. -/
theorem removeDeadFunctions_select (h : program.removeDeadFunctions.result = .ok result)
    (stage : Stage) {before after : Shader} (hbefore : program.shader? stage = some before)
    (hafter : result.shader? stage = some after) (choice : Choice) :
    Shader.KeepsSelected (before.select choice) (after.select choice) := by
  obtain ⟨vertex, fragment, rfl, rfl⟩ := removeDeadFunctions_eq_ok h
  cases stage with
  | vertex | fragment =>
    cases hbefore
    cases hafter
    exact Shader.keepsSelected_removeDead _ choice

/-- The definition that `main` calls is selected from the second branch, for
`removeDeadFunctions_select`. -/
theorem removeDeadFunctions_select_otherwise :
    ∃ before after definition, Shader.parse
        ("#ifdef A\nfloat f()\x7breturn 1.;\x7d\n#else\nfloat f()\x7breturn 2.;\x7d" ++
          "void h()\x7b\x7d\n#endif\nvoid main()\x7bf();\x7d") .vertex = .ok before ∧
      (removeDeadFunctions ⟨some before, some Shader.idle⟩).result =
        .ok ⟨some after, some Shader.idle⟩ ∧
      definition ∈ before.select (fun _ => some 1) ∧
      definition ∉ before.select (fun _ => some 0) ∧
      definition ∈ after.select (fun _ => some 1) := by
  let body (text : String) : List Statement := [.returnValue (some (.float ⟨text⟩))]
  let one : Item := .function ⟨⟨none, none, .named "float"⟩, "f", []⟩ (body "1.")
  let two : Item := .function ⟨⟨none, none, .named "float"⟩, "f", []⟩ (body "2.")
  let spare : Item := .function ⟨⟨none, none, .named "void"⟩, "h", []⟩ []
  let main : Item := .function ⟨⟨none, none, .named "void"⟩, "main", []⟩
    [.simple (.expression (some (.call "f" [])))]
  let before : Shader := ⟨[.conditional .ifDefined "A" [one] (.otherwise [two, spare]), main]⟩
  have hresult := result_removeDeadFunctions (Shader.hasMain_iff.1 (rfl :
    (CallGraph.ofShader before).hasMain = true)) Shader.definesMain_idle
  rw [Shader.removeDead_idle] at hresult
  have hmain : main ∈ before.select (fun _ => some 1) := by decide
  have htwo : two ∈ before.select (fun _ => some 1) := by decide
  refine ⟨before, _, two, by decide +kernel, hresult, htwo, by decide, ?_⟩
  have hkeeps := removeDeadFunctions_select hresult .vertex rfl rfl fun _ => some 1
  exact hkeeps.reached two htwo _ rfl (.call hmain (.main hmain rfl) (by decide))

end Program

end ShaderMinifier
