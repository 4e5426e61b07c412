import ShaderMinifier.Proofs.Function.Live
import ShaderMinifier.Proofs.Item.Merge
import ShaderMinifier.Proofs.Site.Nesting
import ShaderMinifier.Proofs.Site.Relabel

/-
  The lines that the preprocessor acts on: the directives and conditionals of a shader, nested as
  they are, without all that stands between them. Dropping functions, merging declarations and
  putting new names in place leave them as they are, and so the words that the preprocessor sees.
-/

namespace ShaderMinifier

namespace Item

mutual

/-- What the preprocessor acts on in an item: directives, and conditionals with nothing else in
them. -/
def skeleton : Item → List Item
  | directive line => [.directive line]
  | conditional kind condition body rest =>
    [.conditional kind condition (listSkeleton body) (branchSkeleton rest)]
  | precision _ _ | invariant _ | declaration _ | prototype _ | function _ _ => []

def listSkeleton : List Item → List Item
  | [] => []
  | item :: items => skeleton item ++ listSkeleton items

/-- What the preprocessor acts on in what follows a branch of a conditional (`skeleton`). -/
def branchSkeleton : Branches → Branches
  | .done => .done
  | .otherwise body => .otherwise (listSkeleton body)
  | .elif condition body rest => .elif condition (listSkeleton body) (branchSkeleton rest)

end

theorem listSkeleton_eq_flatMap (items : List Item) :
    listSkeleton items = items.flatMap skeleton := by
  induction items with
  | nil => rfl
  | cons item items ih => rw [listSkeleton, ih, List.flatMap_cons]

theorem listEvents_append (xs ys : List Item) :
    listEvents (xs ++ ys) = listEvents xs ++ listEvents ys := by
  simp only [listEvents_eq_flatMap, List.flatMap_append]

/-! ## The words of a skeleton -/

mutual

theorem directiveTexts_skeleton : (i : Item) →
    (listEvents i.skeleton).filterMap Event.directiveText =
      i.events.filterMap Event.directiveText
  | directive _ => rfl
  | conditional kind condition body rest => by
    simp only [skeleton, listEvents, events, List.append_nil, List.cons_append,
      List.filterMap_cons, List.filterMap_append, directiveTexts_listSkeleton body,
      directiveTexts_branchSkeleton rest]
  | precision _ _ => rfl
  | invariant names => (Event.Unread.filterMap (by simp [Event.Unread, events, Event.name,
      Event.directiveText])).symm
  | declaration decl => (decl.unread_events .topLevel).filterMap.symm
  | prototype signature =>
    (signature.unread_headEvents.append (signature.unread_paramEvents.inScope _)).filterMap.symm
  | function signature body =>
    (signature.unread_headEvents.append ((signature.unread_paramEvents.append
      (Statement.unread_listEvents body)).inScope _)).filterMap.symm

theorem directiveTexts_listSkeleton : (items : List Item) →
    (listEvents (listSkeleton items)).filterMap Event.directiveText =
      (listEvents items).filterMap Event.directiveText
  | [] => rfl
  | i :: items => by
    rw [listSkeleton, listEvents_append, List.filterMap_append, directiveTexts_skeleton i,
      directiveTexts_listSkeleton items, listEvents, List.filterMap_append]

theorem directiveTexts_branchSkeleton : (b : Branches) →
    (branchEvents (branchSkeleton b)).filterMap Event.directiveText =
      (branchEvents b).filterMap Event.directiveText
  | .done => rfl
  | .otherwise body => directiveTexts_listSkeleton body
  | .elif condition body rest => by
    simp only [branchSkeleton, branchEvents, List.cons_append, List.filterMap_cons,
      List.filterMap_append, directiveTexts_listSkeleton body, directiveTexts_branchSkeleton rest]

end

/-! ## What is kept -/

theorem skeleton_of_signature {i : Item} {signature : Prototype}
    (h : i.signature? = some signature) : i.skeleton = [] := by
  cases i with
  | prototype _ | function _ _ => rfl
  | directive _ | conditional _ _ _ _ | precision _ _ | invariant _ | declaration _ => cases h

variable {dead : FunctionKey → Prop}

mutual

theorem Prunes.listSkeleton_eq : {items items' : List Item} → Prunes dead items items' →
    listSkeleton items' = listSkeleton items
  | _, _, .nil => rfl
  | _, _, .conditional hbody hrest hitems => by
    rw [listSkeleton, listSkeleton, skeleton, skeleton, hbody.listSkeleton_eq,
      hrest.branchSkeleton_eq, hitems.listSkeleton_eq]
  | _, _, .drop hsignature _ hitems => by
    rw [listSkeleton, skeleton_of_signature hsignature, List.nil_append, hitems.listSkeleton_eq]
  | _, _, .keep _ _ hitems => by rw [listSkeleton, listSkeleton, hitems.listSkeleton_eq]

theorem PrunesBranches.branchSkeleton_eq : {b b' : Branches} → PrunesBranches dead b b' →
    branchSkeleton b' = branchSkeleton b
  | _, _, .done => rfl
  | _, _, .otherwise hbody => by rw [branchSkeleton, branchSkeleton, hbody.listSkeleton_eq]
  | _, _, .elif hbody hrest => by
    rw [branchSkeleton, branchSkeleton, hbody.listSkeleton_eq, hrest.branchSkeleton_eq]

end

theorem listSkeleton_mergeRuns (items : List Item) :
    listSkeleton (mergeRuns declaration? declaration items) = listSkeleton items := by
  rw [listSkeleton_eq_flatMap, listSkeleton_eq_flatMap]
  refine flatMap_mergeRuns (fun x y first second hfirst hsecond _ => ?_) items
  rw [declaration?_eq_some hfirst, declaration?_eq_some hsecond]
  rfl

mutual

theorem skeleton_merge : (i : Item) → (merge i).skeleton = i.skeleton
  | conditional kind condition body rest => by
    rw [merge, skeleton, skeleton, listSkeleton_mergeRuns, listSkeleton_mergeEach body,
      branchSkeleton_mergeBranches rest]
  | directive _ | precision _ _ | invariant _ | declaration _ | prototype _ | function _ _ => rfl

theorem listSkeleton_mergeEach : (items : List Item) →
    listSkeleton (mergeEach items) = listSkeleton items
  | [] => rfl
  | i :: items => by
    rw [mergeEach, listSkeleton, listSkeleton, skeleton_merge i, listSkeleton_mergeEach items]

theorem branchSkeleton_mergeBranches : (b : Branches) →
    branchSkeleton (mergeBranches b) = branchSkeleton b
  | .done => rfl
  | .otherwise body => by
    rw [mergeBranches, branchSkeleton, branchSkeleton, listSkeleton_mergeRuns,
      listSkeleton_mergeEach body]
  | .elif condition body rest => by
    rw [mergeBranches, branchSkeleton, branchSkeleton, listSkeleton_mergeRuns,
      listSkeleton_mergeEach body, branchSkeleton_mergeBranches rest]

end

mutual

theorem skeleton_relabel : (i : Item) → (supply : List String) →
    (i.relabel supply).1.skeleton = i.skeleton
  | conditional kind condition body rest, supply => by
    show [Item.conditional kind condition (listSkeleton (relabelList body supply).1)
      (branchSkeleton (relabelBranches rest (relabelList body supply).2).1)] = _
    rw [listSkeleton_relabelList body, branchSkeleton_relabelBranches rest, skeleton]
  | directive _, _ | precision _ _, _ | invariant _, _ | declaration _, _ | prototype _, _
  | function _ _, _ => rfl

theorem listSkeleton_relabelList : (items : List Item) → (supply : List String) →
    listSkeleton (relabelList items supply).1 = listSkeleton items
  | [], _ => rfl
  | i :: items, supply => by
    show (i.relabel supply).1.skeleton ++
      listSkeleton (relabelList items (i.relabel supply).2).1 = _
    rw [skeleton_relabel i, listSkeleton_relabelList items, listSkeleton]

theorem branchSkeleton_relabelBranches : (b : Branches) → (supply : List String) →
    branchSkeleton (relabelBranches b supply).1 = branchSkeleton b
  | .done, _ => rfl
  | .otherwise body, supply => by
    show Branches.otherwise (listSkeleton (relabelList body supply).1) = _
    rw [listSkeleton_relabelList body, branchSkeleton]
  | .elif condition body rest, supply => by
    show Branches.elif condition (listSkeleton (relabelList body supply).1)
      (branchSkeleton (relabelBranches rest (relabelList body supply).2).1) = _
    rw [listSkeleton_relabelList body, branchSkeleton_relabelBranches rest, branchSkeleton]

end

end Item

namespace Shader

variable {shader other : Shader}

/-- The directives and conditionals of a shader, nested as they are, and nothing else. -/
def skeleton (shader : Shader) : List Item := Item.listSkeleton shader.items

theorem directiveWords_congr (h : other.skeleton = shader.skeleton) :
    other.directiveWords = shader.directiveWords := by
  rw [directiveWords, events, ← Item.directiveTexts_listSkeleton, ← skeleton, h, skeleton,
    Item.directiveTexts_listSkeleton, ← events, ← directiveWords]

theorem skeleton_removeDead (shader : Shader) : shader.removeDead.skeleton = shader.skeleton :=
  (Item.prunes_retainList (fun _ => dead_iff) shader.items).listSkeleton_eq

theorem skeleton_mergeDeclarations (shader : Shader) :
    shader.mergeDeclarations.skeleton = shader.skeleton :=
  (Item.listSkeleton_mergeRuns _).trans (Item.listSkeleton_mergeEach shader.items)

theorem skeleton_withNames (shader : Shader) (names : List String) :
    (shader.withNames names).skeleton = shader.skeleton :=
  Item.listSkeleton_relabelList shader.items names

end Shader

end ShaderMinifier
