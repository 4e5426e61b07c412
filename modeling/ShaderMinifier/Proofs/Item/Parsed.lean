import ShaderMinifier.Proofs.Declaration.Parsed
import ShaderMinifier.Proofs.Item.Shape
import ShaderMinifier.Proofs.Statement.Parsed

/-
  Every item that is read fits into the room that it was read with.
-/

namespace ShaderMinifier

namespace Parser

variable {room : Nat} {stage : Stage}

/-! ## Items without branches -/

theorem yields_directiveValue : Yields directiveValue Directive.IsValue := by
  intro input v rest h
  obtain ⟨rfl, -⟩ := Reply.matched.inj h
  exact Directive.isValue_trim_line input

theorem yields_precisionItem : Yields precisionItem (Item.Fits stage · room) := by
  refine Yields.skip fun _ => Yields.skip fun level => ?_
  cases level with
  | none => exact Yields.fail _
  | some level =>
    exact Yields.bind yields_typeName.commit fun type htype => Yields.skip fun _ =>
      Yields.pure htype

theorem yields_invariantItem : Yields invariantItem (Item.Fits stage · room) :=
  Yields.skip fun _ => Yields.bind yields_identifier.sepBy1 fun _ hnames =>
    Yields.skip fun _ => Yields.pure hnames

theorem yields_functionRest {start : List Char} {type : QualifiedType} {name : String}
    (htype : type.specifier.Fits room) (hname : Word.Declarable name) :
    Yields (functionRest room start type name) (Item.Fits stage · room) := by
  unfold functionRest
  cases hqualifier : type.qualifier with
  | some qualifier => exact Yields.failAt _ _
  | none =>
    refine Yields.bind (yields_parameters room).commit fun params hparams => ?_
    have hsignature : Prototype.Fits room ⟨type, name, params⟩ :=
      ⟨htype, hqualifier, hname, hparams⟩
    refine Yields.skip fun semicolon => ?_
    cases semicolon with
    | some _ => exact Yields.pure hsignature
    | none =>
      refine Yields.skip fun brace => ?_
      cases brace with
      | true => exact Yields.bind (yields_block room) fun body hbody =>
          Yields.pure ⟨hsignature, hbody⟩
      | false => exact Yields.fail _

theorem yields_typedItem : Yields (typedItem room stage) (Item.Fits stage · room) := by
  refine Yields.skip fun start => Yields.bind (yields_qualifiedType room) fun type htype =>
    Yields.skip fun bare => ?_
  cases bare with
  | true => exact Yields.bind (yields_bareDeclaration htype) fun d hd => Yields.pure hd
  | false =>
    refine Yields.bind yields_declaredName fun name hname => Yields.skip fun bracket => ?_
    cases bracket with
    | some _ => exact yields_functionRest htype hname
    | none => exact Yields.bind (yields_declarationRest htype hname) fun d hd => Yields.pure hd

theorem yields_plainItem : Yields (plainItem room stage) (Item.Fits stage · room) := by
  refine Yields.skip fun word => ?_
  split
  · exact yields_precisionItem
  · have hinvariant : Yields invariantItem (Item.Fits stage · room) := yields_invariantItem
    refine Yields.bind hinvariant.optional fun item hitem => ?_
    cases item with
    | some item => exact Yields.pure (hitem item rfl)
    | none => exact yields_typedItem
  · exact yields_typedItem

/-! ## Conditionals -/

theorem isCondition_of_isValue {text : String} (h : Directive.IsValue text)
    (hempty : ¬ text.isEmpty = true) : Directive.IsCondition text :=
  ⟨h, by simpa using hempty⟩

theorem yields_marker (m : BranchMarker) : Yields (marker m) Directive.IsValue := by
  refine Yields.skip fun found => ?_
  split
  · exact Yields.skip fun _ => yields_directiveValue
  · exact Yields.mismatch _

theorem yields_elifBranch {items : Parser (List Item)}
    (hitems : Yields items (Item.AllFit stage · room)) :
    Yields (elifBranch items) fun branch =>
      Directive.IsCondition branch.1 ∧ Item.AllFit stage branch.2 room := by
  refine Yields.skip fun start => Yields.bind (yields_marker .elif) fun text htext => ?_
  split
  · exact Yields.failAt _ _
  · next hempty =>
    exact Yields.bind hitems fun body hbody =>
      Yields.pure ⟨isCondition_of_isValue htext hempty, hbody⟩

theorem branchesFit_foldr {elifs : List (String × List Item)} {last : Branches}
    (helifs : ∀ branch ∈ elifs,
      Directive.IsCondition branch.1 ∧ Item.AllFit stage branch.2 room)
    (hlast : Item.BranchesFit stage last room) :
    Item.BranchesFit stage
      (elifs.foldr (fun branch rest => .elif branch.1 branch.2 rest) last) room := by
  induction elifs with
  | nil => exact hlast
  | cons branch elifs ih =>
    obtain ⟨hcondition, hbody⟩ := helifs branch (by simp)
    exact ⟨hcondition, hbody, ih fun b hb => helifs b (by simp [hb])⟩

theorem yields_branches {items : Parser (List Item)} {opener : List Char}
    {kind : ConditionalKind} (hitems : Yields items (Item.AllFit stage · room)) :
    Yields (branches opener kind items) (Item.BranchesFit stage · room) := by
  refine Yields.bind (yields_elifBranch hitems).many fun elifs helifs =>
    Yields.skip fun otherwise => ?_
  have hend : ∀ last, Item.BranchesFit stage last room →
      Yields (do closing opener kind; pure (elifs.foldr (fun b rest => .elif b.1 b.2 rest) last))
        (Item.BranchesFit stage · room) :=
    fun last hlast => Yields.skip fun _ => Yields.pure (branchesFit_foldr helifs hlast)
  cases otherwise with
  | some _ =>
    exact Yields.bind (Yields.map (R := (Item.BranchesFit stage · room)) hitems fun _ h => h) hend
  | none => exact Yields.bind (Yields.pure (Q := (Item.BranchesFit stage · room)) trivial) hend

theorem yields_directiveItem {conditional : List Char → ConditionalKind → Parser Item}
    (h : ∀ opener kind, Yields (conditional opener kind) (Item.Fits stage · room)) :
    Yields (directiveItem conditional) (Item.Fits stage · room) := by
  refine Yields.skip fun start => Yields.skip fun name => ?_
  split
  · exact Yields.mismatchAt _ _
  · split
    · exact h _ _
    · split
      · next hplain =>
        exact Yields.bind yields_directiveValue fun value hvalue =>
          Yields.pure ⟨by simpa using hplain, hvalue⟩
      · exact Yields.failAt _ _

theorem yields_itemOf {conditional : List Char → ConditionalKind → Parser Item}
    (h : ∀ opener kind, Yields (conditional opener kind) (Item.Fits stage · room)) :
    Yields (itemOf room stage conditional) (Item.Fits stage · room) := by
  refine Yields.skip fun input => ?_
  split
  · exact Yields.mismatch _
  · exact yields_directiveItem h
  · exact yields_plainItem.commit

/-- What `conditionalItem` gives fits the room. By induction on the room: a conditional takes one
level from the room of its branches. -/
theorem yields_conditionalItem (stage : Stage) (room : Nat) (opener : List Char)
    (kind : ConditionalKind) :
    Yields (conditionalItem stage room opener kind) (Item.Fits stage · room) := by
  induction room generalizing opener kind with
  | zero =>
    intro input v rest h
    rw [conditionalItem] at h
    cases h
  | succ room ih =>
    have hitems : Yields (many (itemOf room stage (conditionalItem stage room)))
        (Item.AllFit stage · room) :=
      (yields_itemOf ih).many.mono fun items hfit => Item.allFit_iff.2 hfit
    refine Yields.bind yields_directiveValue fun condition hvalue => ?_
    split
    · exact Yields.failAt _ _
    · next hempty =>
      exact Yields.bind hitems fun body hbody => Yields.bind (yields_branches hitems)
        fun rest hrest => Yields.pure
          ⟨by omega, isCondition_of_isValue hvalue hempty, hbody, hrest⟩

theorem yields_shader : Yields (shader stage) fun s => Item.AllFit stage s.items maxNesting := by
  have hitem := yields_itemOf (yields_conditionalItem stage maxNesting)
  refine Yields.skip fun _ => Yields.bind hitem.many fun items hitems =>
    Yields.skip fun marker => ?_
  cases marker with
  | some _ => exact Yields.fail _
  | none => exact Yields.pure (Item.allFit_iff.2 hitems)

end Parser

end ShaderMinifier
