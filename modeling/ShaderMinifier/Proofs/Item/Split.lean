import ShaderMinifier.Proofs.Program.Minified

/-
  Merging declarations only regroups them. `split` declares every variable on its own wherever
  declarations stand in a list, and a shader and its merged form are split into the same shader;
  so the variables keep their order, types, sizes and values, and all else stays as it is.
  `Settled` says that no neighbours are left that could be merged. A merged shader is settled, and
  one that is settled stays as it is when it is merged.
-/

namespace ShaderMinifier

/-! ## Declarations -/

namespace Declaration

/-- A declaration for each variable. One that spells out a struct (`isStruct`), and one without
variables, stays as it is. -/
def split (d : Declaration) : List Declaration :=
  if d.type.specifier.isStruct || d.declarators.isEmpty then [d]
  else d.declarators.map fun declarator => ⟨d.type, [declarator]⟩

variable {first second : Declaration}

theorem split_of_variables (hstruct : first.type.specifier.isStruct = false)
    (hne : first.declarators ≠ []) :
    first.split = first.declarators.map fun declarator => ⟨first.type, [declarator]⟩ := by
  rw [split, hstruct, if_neg (by simpa using hne)]

theorem split_merge (h : first.canMerge second = true) :
    (first.merge second).split = first.split ++ second.split := by
  obtain ⟨hstruct, htype, hne, hne'⟩ := canMerge_iff.1 h
  have hstruct' : second.type.specifier.isStruct = false := htype ▸ hstruct
  have hmerged : (first.merge second).type.specifier.isStruct = false := hstruct
  rw [split_of_variables hstruct hne, split_of_variables hstruct' hne',
    split_of_variables hmerged (by simp [merge, hne]), merge, List.map_append, htype]

theorem canMerge_merge (h : first.canMerge second = true) (third : Declaration) :
    (first.merge second).canMerge third = second.canMerge third := by
  obtain ⟨hstruct, htype, hne, hne'⟩ := canMerge_iff.1 h
  rw [Bool.eq_iff_iff, canMerge_iff, canMerge_iff]
  simp [merge, ← htype, hne, hne']

end Declaration

/-! ## Runs -/

section Runs

variable {α : Type}

/-- The elements that an element is split into, by `Declaration.split` if it is a declaration. -/
def splitOne (declaration? : α → Option Declaration) (ofDeclaration : Declaration → α) (x : α) :
    List α :=
  match declaration? x with
  | some decl => decl.split.map ofDeclaration
  | none => [x]

/-- The elements are not two declarations that can be written as one (`canMerge`). -/
def StayApart (declaration? : α → Option Declaration) (x y : α) : Prop :=
  ∀ first ∈ declaration? x, ∀ second ∈ declaration? y, first.canMerge second = false

variable {declaration? : α → Option Declaration} {ofDeclaration : Declaration → α}

/-- An element goes into the list of its neighbour exactly if it can be merged with it: the two
cases of `mergeInto`. -/
theorem mergeInto_cons_cases (x y : α) (ys : List α) :
    (StayApart declaration? x y ∧ mergeInto declaration? ofDeclaration x (y :: ys) = x :: y :: ys) ∨
      ∃ first second, declaration? x = some first ∧ declaration? y = some second ∧
        first.canMerge second = true ∧
        mergeInto declaration? ofDeclaration x (y :: ys) =
          ofDeclaration (first.merge second) :: ys := by
  rw [mergeInto, StayApart]
  cases hx : declaration? x with
  | none => exact .inl ⟨by simp, rfl⟩
  | some first =>
    cases hy : declaration? y with
    | none => exact .inl ⟨by simp, rfl⟩
    | some second =>
      cases hmerge : first.canMerge second with
      | false => exact .inl ⟨by simp [hmerge], by simp [hmerge]⟩
      | true => exact .inr ⟨first, second, rfl, rfl, hmerge, by simp [hmerge]⟩

theorem isChain_mergeInto (hof : ∀ decl, declaration? (ofDeclaration decl) = some decl) (x : α)
    {ys : List α} (hys : ys.IsChain (StayApart declaration?)) :
    (mergeInto declaration? ofDeclaration x ys).IsChain (StayApart declaration?) := by
  cases ys with
  | nil => exact .singleton x
  | cons y ys =>
    rcases mergeInto_cons_cases x y ys with ⟨hapart, heq⟩ | ⟨first, second, -, hy, hmerge, heq⟩
    · rw [heq]
      exact hys.cons_cons hapart
    · rw [heq]
      rw [List.isChain_cons] at hys ⊢
      refine ⟨fun z hz merged hmerged third hthird => ?_, hys.2⟩
      obtain rfl := Option.some.inj ((hof _).symm.trans hmerged)
      rw [Declaration.canMerge_merge hmerge]
      exact hys.1 z hz second hy third hthird

theorem isChain_mergeRuns (hof : ∀ decl, declaration? (ofDeclaration decl) = some decl)
    (xs : List α) :
    (mergeRuns declaration? ofDeclaration xs).IsChain (StayApart declaration?) := by
  induction xs with
  | nil => exact .nil
  | cons x xs ih => exact isChain_mergeInto hof x ih

theorem mergeRuns_of_isChain {xs : List α} (h : xs.IsChain (StayApart declaration?)) :
    mergeRuns declaration? ofDeclaration xs = xs := by
  induction xs with
  | nil => rfl
  | cons x xs ih =>
    rw [mergeRuns, List.foldr_cons, ← mergeRuns, ih h.tail]
    cases xs with
    | nil => rfl
    | cons y ys =>
      rcases mergeInto_cons_cases x y ys with ⟨-, heq⟩ | ⟨first, second, hx, hy, hmerge, -⟩
      · exact heq
      · have hapart := (List.isChain_cons_cons.1 h).1 first hx second hy
        rw [hmerge] at hapart
        cases hapart

end Runs

/-! ## Statements -/

namespace Statement

mutual

/-- The statement with the declarations in its blocks split; what `Statement.merge` does not
change. -/
def split : Statement → Statement
  | block body => block (splitList body)
  | simple stmt => simple stmt
  | ifThen condition body => ifThen condition (split body)
  | ifElse condition whenTrue whenFalse => ifElse condition (split whenTrue) (split whenFalse)
  | whileLoop condition body => whileLoop condition (split body)
  | doWhile body condition => doWhile (split body) condition
  | forLoop init condition step body => forLoop init condition step (split body)
  | continueLoop => continueLoop
  | breakLoop => breakLoop
  | returnValue value => returnValue value
  | discard => discard

/-- The statements of a block, split inside by `split` and one by one by `splitOne`. -/
def splitList : List Statement → List Statement
  | [] => []
  | stmt :: body => splitOne declaration? declaration (split stmt) ++ splitList body

end

mutual

/-- No neighbours in a block of the statement can be merged (`StayApart`). -/
def Settled : Statement → Prop
  | block body => body.IsChain (StayApart declaration?) ∧ EachSettled body
  | ifThen _ body | whileLoop _ body | doWhile body _ | forLoop _ _ _ body => Settled body
  | ifElse _ whenTrue whenFalse => Settled whenTrue ∧ Settled whenFalse
  | simple _ | continueLoop | breakLoop | returnValue _ | discard => True

/-- Each of the statements is `Settled` inside. -/
def EachSettled : List Statement → Prop
  | [] => True
  | stmt :: body => Settled stmt ∧ EachSettled body

end

def ListSettled (body : List Statement) : Prop :=
  body.IsChain (StayApart declaration?) ∧ EachSettled body

theorem splitList_eq_flatMap (body : List Statement) :
    splitList body = body.flatMap fun stmt => splitOne declaration? declaration (split stmt) := by
  induction body with
  | nil => rfl
  | cons stmt body ih => rw [splitList, ih, List.flatMap_cons]

theorem eachSettled_iff {body : List Statement} :
    EachSettled body ↔ ∀ stmt ∈ body, stmt.Settled := by
  induction body with
  | nil => simp [EachSettled]
  | cons stmt body ih => simp [EachSettled, ih]

theorem splitList_mergeRuns (body : List Statement) :
    splitList (mergeRuns declaration? declaration body) = splitList body := by
  rw [splitList_eq_flatMap, splitList_eq_flatMap]
  refine flatMap_mergeRuns (fun x y first second hx hy hmerge => ?_) body
  rw [declaration?_eq_some hx, declaration?_eq_some hy]
  show (first.merge second).split.map declaration =
    first.split.map declaration ++ second.split.map declaration
  rw [Declaration.split_merge hmerge, List.map_append]

mutual

theorem split_merge : (s : Statement) → split (merge s) = split s
  | block body => by
    rw [merge, split, split, splitList_mergeRuns, splitList_mergeEach]
  | ifThen condition body => by rw [merge, split, split, split_merge body]
  | ifElse condition whenTrue whenFalse => by
    rw [merge, split, split, split_merge whenTrue, split_merge whenFalse]
  | whileLoop condition body => by rw [merge, split, split, split_merge body]
  | doWhile body condition => by rw [merge, split, split, split_merge body]
  | forLoop init condition step body => by rw [merge, split, split, split_merge body]
  | simple _ | continueLoop | breakLoop | returnValue _ | discard => rfl

theorem splitList_mergeEach : (body : List Statement) → splitList (mergeEach body) = splitList body
  | [] => rfl
  | stmt :: body => by
    rw [mergeEach, splitList, splitList, split_merge stmt, splitList_mergeEach body]

end

theorem splitList_mergeList (body : List Statement) :
    splitList (mergeList body) = splitList body := by
  rw [mergeList, splitList_mergeRuns, splitList_mergeEach]

theorem declaration?_declaration (decl : Declaration) :
    declaration? (declaration decl) = some decl := rfl

theorem listSettled_mergeRuns {body : List Statement} (h : EachSettled body) :
    ListSettled (mergeRuns declaration? declaration body) := by
  refine ⟨isChain_mergeRuns declaration?_declaration body, eachSettled_iff.2 ?_⟩
  exact forall_mergeRuns (fun _ _ _ _ _ _ _ _ _ => trivial) (eachSettled_iff.1 h)

mutual

theorem settled_merge : (s : Statement) → (merge s).Settled
  | block body => listSettled_mergeRuns (eachSettled_mergeEach body)
  | ifThen _ body | whileLoop _ body | doWhile body _ | forLoop _ _ _ body => settled_merge body
  | ifElse _ whenTrue whenFalse => ⟨settled_merge whenTrue, settled_merge whenFalse⟩
  | simple _ | continueLoop | breakLoop | returnValue _ | discard => trivial

theorem eachSettled_mergeEach : (body : List Statement) → EachSettled (mergeEach body)
  | [] => trivial
  | stmt :: body => ⟨settled_merge stmt, eachSettled_mergeEach body⟩

end

theorem listSettled_mergeList (body : List Statement) : ListSettled (mergeList body) :=
  listSettled_mergeRuns (eachSettled_mergeEach body)

mutual

theorem merge_of_settled : (s : Statement) → s.Settled → merge s = s
  | block body, h => by rw [merge, mergeEach_of_settled body h.2, mergeRuns_of_isChain h.1]
  | ifThen condition body, h => by rw [merge, merge_of_settled body h]
  | ifElse condition whenTrue whenFalse, h => by
    rw [merge, merge_of_settled whenTrue h.1, merge_of_settled whenFalse h.2]
  | whileLoop condition body, h => by rw [merge, merge_of_settled body h]
  | doWhile body condition, h => by rw [merge, merge_of_settled body h]
  | forLoop init condition step body, h => by rw [merge, merge_of_settled body h]
  | simple _, _ | continueLoop, _ | breakLoop, _ | returnValue _, _ | discard, _ => rfl

theorem mergeEach_of_settled : (body : List Statement) → EachSettled body → mergeEach body = body
  | [], _ => rfl
  | stmt :: body, h => by
    rw [mergeEach, merge_of_settled stmt h.1, mergeEach_of_settled body h.2]

end

theorem mergeList_of_settled {body : List Statement} (h : ListSettled body) :
    mergeList body = body := by
  rw [mergeList, mergeEach_of_settled body h.2, mergeRuns_of_isChain h.1]

end Statement

/-! ## Items -/

namespace Item

mutual

/-- The item with the declarations in its blocks and branches split; what `Item.merge` does not
change. -/
def split : Item → Item
  | conditional kind condition body rest =>
    conditional kind condition (splitList body) (splitBranches rest)
  | function signature body => function signature (Statement.splitList body)
  | directive line => directive line
  | precision level type => precision level type
  | invariant names => invariant names
  | declaration decl => declaration decl
  | prototype signature => prototype signature

/-- Items in a row, split inside by `split` and one by one by `splitOne`. -/
def splitList : List Item → List Item
  | [] => []
  | item :: items => splitOne declaration? declaration (split item) ++ splitList items

def splitBranches : Branches → Branches
  | .done => .done
  | .otherwise body => .otherwise (splitList body)
  | .elif condition body rest => .elif condition (splitList body) (splitBranches rest)

end

mutual

/-- No neighbours in a block or in a branch of the item can be merged (`StayApart`). -/
def Settled : Item → Prop
  | conditional _ _ body rest =>
    (body.IsChain (StayApart declaration?) ∧ EachSettled body) ∧ BranchesSettled rest
  | function _ body => Statement.ListSettled body
  | directive _ | precision _ _ | invariant _ | declaration _ | prototype _ => True

/-- Each of the items is `Settled` inside. -/
def EachSettled : List Item → Prop
  | [] => True
  | item :: items => Settled item ∧ EachSettled items

/-- What follows a branch of a conditional is settled, each branch as `ListSettled` says. -/
def BranchesSettled : Branches → Prop
  | .done => True
  | .otherwise body => body.IsChain (StayApart declaration?) ∧ EachSettled body
  | .elif _ body rest =>
    (body.IsChain (StayApart declaration?) ∧ EachSettled body) ∧ BranchesSettled rest

end

def ListSettled (items : List Item) : Prop :=
  items.IsChain (StayApart declaration?) ∧ EachSettled items

theorem splitList_eq_flatMap (items : List Item) :
    splitList items = items.flatMap fun item => splitOne declaration? declaration (split item) := by
  induction items with
  | nil => rfl
  | cons item items ih => rw [splitList, ih, List.flatMap_cons]

theorem eachSettled_iff {items : List Item} :
    EachSettled items ↔ ∀ item ∈ items, item.Settled := by
  induction items with
  | nil => simp [EachSettled]
  | cons item items ih => simp [EachSettled, ih]

theorem splitList_mergeRuns (items : List Item) :
    splitList (mergeRuns declaration? declaration items) = splitList items := by
  rw [splitList_eq_flatMap, splitList_eq_flatMap]
  refine flatMap_mergeRuns (fun x y first second hx hy hmerge => ?_) items
  rw [declaration?_eq_some hx, declaration?_eq_some hy]
  show (first.merge second).split.map declaration =
    first.split.map declaration ++ second.split.map declaration
  rw [Declaration.split_merge hmerge, List.map_append]

mutual

theorem split_merge : (i : Item) → split (merge i) = split i
  | conditional kind condition body rest => by
    rw [merge, split, split, splitList_mergeRuns, splitList_mergeEach body,
      splitBranches_mergeBranches rest]
  | function signature body => by rw [merge, split, split, Statement.splitList_mergeList]
  | directive _ | precision _ _ | invariant _ | declaration _ | prototype _ => rfl

theorem splitList_mergeEach : (items : List Item) → splitList (mergeEach items) = splitList items
  | [] => rfl
  | item :: items => by
    rw [mergeEach, splitList, splitList, split_merge item, splitList_mergeEach items]

theorem splitBranches_mergeBranches : (b : Branches) →
    splitBranches (mergeBranches b) = splitBranches b
  | .done => rfl
  | .otherwise body => by
    rw [mergeBranches, splitBranches, splitBranches, splitList_mergeRuns, splitList_mergeEach body]
  | .elif condition body rest => by
    rw [mergeBranches, splitBranches, splitBranches, splitList_mergeRuns,
      splitList_mergeEach body, splitBranches_mergeBranches rest]

end

theorem declaration?_declaration (decl : Declaration) :
    declaration? (declaration decl) = some decl := rfl

theorem listSettled_mergeRuns {items : List Item} (h : EachSettled items) :
    ListSettled (mergeRuns declaration? declaration items) := by
  refine ⟨isChain_mergeRuns declaration?_declaration items, eachSettled_iff.2 ?_⟩
  exact forall_mergeRuns (fun _ _ _ _ _ _ _ _ _ => trivial) (eachSettled_iff.1 h)

mutual

theorem settled_merge : (i : Item) → (merge i).Settled
  | conditional _ _ body rest =>
    ⟨listSettled_mergeRuns (eachSettled_mergeEach body), branchesSettled_mergeBranches rest⟩
  | function _ body => Statement.listSettled_mergeList body
  | directive _ | precision _ _ | invariant _ | declaration _ | prototype _ => trivial

theorem eachSettled_mergeEach : (items : List Item) → EachSettled (mergeEach items)
  | [] => trivial
  | item :: items => ⟨settled_merge item, eachSettled_mergeEach items⟩

theorem branchesSettled_mergeBranches : (b : Branches) → BranchesSettled (mergeBranches b)
  | .done => trivial
  | .otherwise body => listSettled_mergeRuns (eachSettled_mergeEach body)
  | .elif _ body rest =>
    ⟨listSettled_mergeRuns (eachSettled_mergeEach body), branchesSettled_mergeBranches rest⟩

end

mutual

theorem merge_of_settled : (i : Item) → i.Settled → merge i = i
  | conditional kind condition body rest, h => by
    rw [merge, mergeEach_of_settled body h.1.2, mergeRuns_of_isChain h.1.1,
      mergeBranches_of_settled rest h.2]
  | function signature body, h => by rw [merge, Statement.mergeList_of_settled h]
  | directive _, _ | precision _ _, _ | invariant _, _ | declaration _, _ | prototype _, _ => rfl

theorem mergeEach_of_settled : (items : List Item) → EachSettled items → mergeEach items = items
  | [], _ => rfl
  | item :: items, h => by
    rw [mergeEach, merge_of_settled item h.1, mergeEach_of_settled items h.2]

theorem mergeBranches_of_settled : (b : Branches) → BranchesSettled b → mergeBranches b = b
  | .done, _ => rfl
  | .otherwise body, h => by
    rw [mergeBranches, mergeEach_of_settled body h.2, mergeRuns_of_isChain h.1]
  | .elif condition body rest, h => by
    rw [mergeBranches, mergeEach_of_settled body h.1.2, mergeRuns_of_isChain h.1.1,
      mergeBranches_of_settled rest h.2]

end

end Item

/-! ## Shaders -/

namespace Shader

/-- The shader with every variable declared on its own (`Declaration.split`), where declarations
stand in a list. -/
def splitDeclarations (shader : Shader) : Shader := ⟨Item.splitList shader.items⟩

/-- No neighbours in the shader can be merged: at its top, in a branch or in a block
(`ListSettled`). -/
def Settled (shader : Shader) : Prop := Item.ListSettled shader.items

variable (shader : Shader)

theorem splitDeclarations_mergeDeclarations :
    shader.mergeDeclarations.splitDeclarations = shader.splitDeclarations := by
  rw [splitDeclarations, mergeDeclarations, Item.mergeList, Item.splitList_mergeRuns,
    Item.splitList_mergeEach, splitDeclarations]

theorem settled_mergeDeclarations : shader.mergeDeclarations.Settled :=
  Item.listSettled_mergeRuns (Item.eachSettled_mergeEach shader.items)

variable {shader}

theorem mergeDeclarations_of_settled (h : shader.Settled) : shader.mergeDeclarations = shader := by
  rw [mergeDeclarations, Item.mergeList, Item.mergeEach_of_settled shader.items h.2,
    mergeRuns_of_isChain h.1]

end Shader

namespace Program

/-- `mergeDeclarations` regroups declarations and does nothing else (`splitDeclarations` stays),
leaves nothing to merge (`Settled`), and a second time changes nothing. -/
theorem mergeDeclarations_regroups (vertex fragment : Shader) :
    ∃ vertex' fragment',
      (mergeDeclarations ⟨some vertex, some fragment⟩).result =
        .ok ⟨some vertex', some fragment'⟩ ∧
      vertex'.splitDeclarations = vertex.splitDeclarations ∧
      fragment'.splitDeclarations = fragment.splitDeclarations ∧
      vertex'.Settled ∧ fragment'.Settled ∧
      (mergeDeclarations ⟨some vertex', some fragment'⟩).result =
        .ok ⟨some vertex', some fragment'⟩ := by
  refine ⟨vertex.mergeDeclarations, fragment.mergeDeclarations,
    result_mergeDeclarations vertex fragment, vertex.splitDeclarations_mergeDeclarations,
    fragment.splitDeclarations_mergeDeclarations, vertex.settled_mergeDeclarations,
    fragment.settled_mergeDeclarations, ?_⟩
  rw [result_mergeDeclarations,
    Shader.mergeDeclarations_of_settled vertex.settled_mergeDeclarations,
    Shader.mergeDeclarations_of_settled fragment.settled_mergeDeclarations]

end Program

end ShaderMinifier
