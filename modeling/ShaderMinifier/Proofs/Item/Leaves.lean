import ShaderMinifier.Item.Leaves
import ShaderMinifier.Proofs.Item.Skeleton
import ShaderMinifier.Proofs.Variable.Resolution

/-
  A shader with its conditionals opened. Going through it meets the same names in the same order
  and resolves them alike, as the marks of the branches tell nothing of variables; so renaming the
  variables of a shader is renaming those of its leaves.
-/

namespace ShaderMinifier

/-- The event marks a branch of a conditional; these are the only events that `Item.leaves`
loses. -/
def Event.isMark : Event → Bool
  | conditional _ _ | elif _ => true
  | directive _ | site _ | enter _ | leave => false

/-- The events that mark no branch (`isMark`). -/
def Event.unmarked (es : List Event) : List Event := es.filter fun e => !e.isMark

open Event

@[simp] theorem Event.unmarked_append (es fs : List Event) :
    unmarked (es ++ fs) = unmarked es ++ unmarked fs :=
  List.filter_append es fs

/-! ## Leaves -/

namespace Item

theorem relabelList_append (xs ys : List Item) (supply : List String) :
    relabelList (xs ++ ys) supply =
      ((relabelList xs supply).1 ++ (relabelList ys (relabelList xs supply).2).1,
        (relabelList ys (relabelList xs supply).2).2) := by
  induction xs generalizing supply with
  | nil => rfl
  | cons x xs ih =>
    show ((relabel x supply).1 :: (relabelList (xs ++ ys) (relabel x supply).2).1,
      (relabelList (xs ++ ys) (relabel x supply).2).2) = _
    rw [ih]
    rfl

theorem length_relabelList (items : List Item) (supply : List String) :
    (relabelList items supply).1.length = items.length := by
  induction items generalizing supply with
  | nil => rfl
  | cons item items ih => exact congrArg (· + 1) (ih _)

mutual

theorem relabelList_leaves : (i : Item) → (supply : List String) →
    relabelList i.leaves supply = ((i.relabel supply).1.leaves, (i.relabel supply).2)
  | conditional _ _ body rest, supply => by
    simp only [leaves, relabelList_append, relabelList_listLeaves body,
      relabelList_branchLeaves rest]
    rfl
  | directive _, _ | precision _ _, _ | invariant _, _ | declaration _, _ | prototype _, _
  | function _ _, _ => rfl

theorem relabelList_listLeaves : (items : List Item) → (supply : List String) →
    relabelList (listLeaves items) supply =
      (listLeaves (relabelList items supply).1, (relabelList items supply).2)
  | [], _ => rfl
  | item :: items, supply => by
    rw [listLeaves, relabelList_append, relabelList_leaves item, relabelList_listLeaves items]
    rfl

theorem relabelList_branchLeaves : (b : Branches) → (supply : List String) →
    relabelList (branchLeaves b) supply =
      (branchLeaves (relabelBranches b supply).1, (relabelBranches b supply).2)
  | .done, _ => rfl
  | .otherwise body, supply => by
    rw [branchLeaves, relabelList_listLeaves body]
    rfl
  | .elif _ body rest, supply => by
    rw [branchLeaves, relabelList_append, relabelList_listLeaves body,
      relabelList_branchLeaves rest]
    rfl

end

mutual

theorem unmarked_leaves : (i : Item) → unmarked (listEvents i.leaves) = unmarked i.events
  | conditional kind condition body rest => by
    have hmark : unmarked (.conditional kind condition :: (listEvents body ++ branchEvents rest)) =
        unmarked (listEvents body ++ branchEvents rest) := rfl
    rw [leaves, listEvents_append, events, List.cons_append, hmark, unmarked_append,
      unmarked_append, unmarked_listLeaves body, unmarked_branchLeaves rest]
  | directive _ | precision _ _ | invariant _ | declaration _ | prototype _ | function _ _ => by
    rw [leaves, listEvents, listEvents, List.append_nil]

theorem unmarked_listLeaves : (items : List Item) →
    unmarked (listEvents (listLeaves items)) = unmarked (listEvents items)
  | [] => rfl
  | item :: items => by
    rw [listLeaves, listEvents_append, listEvents, unmarked_append, unmarked_append,
      unmarked_leaves item, unmarked_listLeaves items]

theorem unmarked_branchLeaves : (b : Branches) →
    unmarked (listEvents (branchLeaves b)) = unmarked (branchEvents b)
  | .done => rfl
  | .otherwise body => unmarked_listLeaves body
  | .elif condition body rest => by
    have hmark : unmarked (.elif condition :: (listEvents body ++ branchEvents rest)) =
        unmarked (listEvents body ++ branchEvents rest) := rfl
    rw [branchLeaves, listEvents_append, branchEvents, List.cons_append, hmark, unmarked_append,
      unmarked_append, unmarked_listLeaves body, unmarked_branchLeaves rest]

end

end Item

/-! ## Marks tell nothing -/

theorem Event.filterMap_site?_unmarked (es : List Event) :
    (unmarked es).filterMap site? = es.filterMap site? := by
  rw [unmarked, List.filterMap_filter]
  refine List.filterMap_congr fun e _ => ?_
  cases e <;> rfl

theorem Resolver.foldl_unmarked (stage : Stage) (r : Resolver) (es : List Event) :
    (unmarked es).foldl (step stage) r = es.foldl (step stage) r := by
  rw [unmarked, List.foldl_filter]
  congr 1
  funext r e
  cases e <;> rfl

namespace Shader

/-- The shader with its conditionals opened: its `leaves` in a row, as `CallGraph.ofShader` sees
it. -/
def opened (shader : Shader) : Shader := ⟨shader.leaves⟩

variable (shader : Shader)

theorem unmarked_opened : unmarked shader.opened.events = unmarked shader.events :=
  Item.unmarked_listLeaves shader.items

theorem sites_opened : shader.opened.sites = shader.sites := by
  rw [sites, ← filterMap_site?_unmarked, unmarked_opened, filterMap_site?_unmarked, ← sites]

theorem run_opened (stage : Stage) (bindings : List Binding) :
    Resolver.run stage bindings shader.opened = Resolver.run stage bindings shader := by
  rw [Resolver.run, ← Resolver.foldl_unmarked, unmarked_opened, Resolver.foldl_unmarked,
    ← Resolver.run]

theorem opened_renameVariables (ids : List (Option Nat)) (names : NewNames) :
    (shader.renameVariables ids names).opened = shader.opened.renameVariables ids names := by
  rw [renameVariables, renameVariables, sites_opened]
  exact congrArg (fun x => Shader.mk x.1) (Item.relabelList_listLeaves shader.items _).symm

end Shader

end ShaderMinifier
