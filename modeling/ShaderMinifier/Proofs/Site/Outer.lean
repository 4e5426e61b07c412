import ShaderMinifier.Proofs.Item.Legible
import ShaderMinifier.Proofs.Site.Restore

/-
  The sites outside all scopes. All sites of a declaration at the top of a shader are such sites;
  so it stays what it is under new names that leave these sites alone, whatever becomes of the
  names inside functions.
-/

namespace ShaderMinifier

/-- The number of scopes that are open at a `Place`. -/
def Place.depth : Place → Nat
  | top => 0
  | prototype => 1
  | body blocks => blocks + 1

namespace Event

/-- The number of scopes that are open behind the event, if `depth` are open before it. -/
def depthAfter (depth : Nat) : Event → Nat
  | enter _ => depth + 1
  | leave => depth - 1
  | directive _ | conditional _ _ | elif _ | site _ => depth

/-- The names at the sites outside all scopes, where `depth` scopes are open at first; `depthAfter`
counts them on. -/
def outerNames (depth : Nat) : List Event → List String
  | [] => []
  | e :: es =>
    (if depth = 0 then e.site?.toList.map Site.name else []) ++ outerNames (e.depthAfter depth) es

variable {es : List Event}

theorem depthAfter_of_leads {e : Event} {place next : Place} (h : e.Leads place next) :
    e.depthAfter place.depth = next.depth := by
  cases h <;> rfl

theorem outerNames_append {place next : Place} (h : Nested place es next) (fs : List Event) :
    outerNames place.depth (es ++ fs) =
      outerNames place.depth es ++ outerNames next.depth fs := by
  induction h with
  | nil => rfl
  | cons he _ ih =>
    rw [List.cons_append, outerNames, outerNames, depthAfter_of_leads he, ih, List.append_assoc]

theorem outerNames_of_sites (h : ∀ e ∈ es, e.site?.isSome = true) :
    outerNames 0 es = siteNames es := by
  induction es with
  | nil => rfl
  | cons e es ih =>
    rw [List.forall_mem_cons] at h
    cases e with
    | site s => exact congrArg (s.name :: ·) (ih h.2)
    | directive _ | conditional _ _ | elif _ | enter _ | leave => cases h.1

end Event

open Event

namespace Renames

variable {supply rest : List String} {es es' fs fs' : List Event}

theorem length_eq (h : Renames supply es es' rest) : es'.length = es.length := by
  induction h with
  | nil => rfl
  | other _ _ ih => rw [List.length_cons, List.length_cons, ih]
  | site _ _ ih => rw [List.length_cons, List.length_cons, ih]

theorem length_outerNames (h : Renames supply es es' rest) (depth : Nat) :
    (outerNames depth es').length = (outerNames depth es).length := by
  induction h generalizing depth with
  | nil => rfl
  | other _ _ ih =>
    rw [outerNames, outerNames, List.length_append, List.length_append, ih]
  | site _ _ ih =>
    rw [outerNames, outerNames, List.length_append, List.length_append]
    refine congrArg₂ _ ?_ (ih _)
    split <;> rfl

theorem outerNames_split (h : Renames supply es es' rest) (hes : Nested .top es .top)
    (hes' : Nested .top es' .top) (hsame : outerNames 0 (es' ++ fs') = outerNames 0 (es ++ fs)) :
    outerNames 0 es' = outerNames 0 es ∧ outerNames 0 fs' = outerNames 0 fs := by
  have hbefore : outerNames 0 (es ++ fs) = outerNames 0 es ++ outerNames 0 fs :=
    outerNames_append hes fs
  have hafter : outerNames 0 (es' ++ fs') = outerNames 0 es' ++ outerNames 0 fs' :=
    outerNames_append hes' fs'
  rw [hbefore, hafter] at hsame
  exact List.append_inj hsame (h.length_outerNames 0)

end Renames

/-- If the event declares a global (`isLocal`), it stays what it is, its `signature` with it. -/
def Event.KeepsGlobal (e e' : Event) : Prop := e.isLocal = false → e' = e

theorem Event.keepsGlobal_of_isLocal {es es' : List Event} (h : ∀ e ∈ es, e.isLocal = true)
    (hlength : es'.length = es.length) : List.Forall₂ KeepsGlobal es es' := by
  refine List.forall₂_iff_zip.2 ⟨hlength.symm, fun {e e'} hmem hlocal => ?_⟩
  rw [h e (List.of_mem_zip hmem).1] at hlocal
  cases hlocal

namespace Declaration

theorem site?_of_mem_events {placement : Placement} (decl : Declaration) :
    ∀ e ∈ decl.events placement, e.site?.isSome = true := by
  have hplain : ∀ {es : List Event}, (∀ e ∈ es, e.isPlain = true) →
      ∀ e ∈ es, e.site?.isSome = true := by
    intro es h e he
    cases e with
    | site s => rfl
    | directive _ | conditional _ _ | elif _ | enter _ | leave => cases h _ he
  rw [events, List.forall_mem_append, List.forall_mem_flatMap]
  refine ⟨hplain decl.type.specifier.isPlain_events, fun d _ => ?_⟩
  rw [Declarator.events, List.forall_mem_append, List.forall_mem_append]
  exact ⟨⟨hplain (ArraySize.isPlain_events d.array),
    hplain (Expr.isPlain_optionalEvents d.initializer)⟩, by simp [Event.name, site?]⟩

theorem relabel_eq_self (placement : Placement) {decl : Declaration} {supply : List String}
    (h : siteNames ((decl.relabel supply).1.events placement) =
      siteNames (decl.events placement)) : (decl.relabel supply).1 = decl := by
  have hown := ((decl.relabel supply).1.restores_relabel placement).own
  rw [h] at hown
  exact hown.unique ((decl.restores_relabel placement).back supply)

end Declaration

/-! ## Items -/

namespace Item

mutual

theorem keepsGlobal_relabel : (i : Item) → (supply : List String) →
    outerNames 0 (i.relabel supply).1.events = outerNames 0 i.events →
    List.Forall₂ KeepsGlobal i.events (i.relabel supply).1.events
  | conditional kind condition body rest, supply, h => by
    obtain ⟨hbody, hrest⟩ := (renames_relabelList body supply).outerNames_split
      (nested_listEvents _) (nested_listEvents _) h
    exact .cons (fun hlocal => by cases hlocal)
      (List.rel_append (keepsGlobal_relabelList body supply hbody)
        (keepsGlobal_relabelBranches rest _ hrest))
  | declaration decl, supply, h => by
    -- All its sites are outer ones, so it has its own names.
    have hsame : (decl.relabel supply).1 = decl := by
      refine Declaration.relabel_eq_self .topLevel ?_
      rw [← outerNames_of_sites (Declaration.site?_of_mem_events _),
        ← outerNames_of_sites decl.site?_of_mem_events]
      exact h
    show List.Forall₂ KeepsGlobal (decl.events .topLevel) ((decl.relabel supply).1.events .topLevel)
    rw [hsame]
    exact List.forall₂_same.2 fun e _ _ => rfl
  | directive line, supply, _ =>
    keepsGlobal_of_isLocal (by simp [events, Event.isLocal]) (renames_relabel _ supply).length_eq
  | precision level type, supply, _ =>
    keepsGlobal_of_isLocal (by simp [events, Event.name, Event.isLocal])
      (renames_relabel (precision level type) supply).length_eq
  | invariant names, supply, _ =>
    keepsGlobal_of_isLocal (by simp [events, Event.name, Event.isLocal])
      (renames_relabel (invariant names) supply).length_eq
  | prototype signature, supply, _ =>
    keepsGlobal_of_isLocal (isLocal_prototype signature)
      (renames_relabel (prototype signature) supply).length_eq
  | function signature body, supply, _ =>
    keepsGlobal_of_isLocal (isLocal_function signature body)
      (renames_relabel (function signature body) supply).length_eq

theorem keepsGlobal_relabelList : (items : List Item) → (supply : List String) →
    outerNames 0 (listEvents (relabelList items supply).1) = outerNames 0 (listEvents items) →
    List.Forall₂ KeepsGlobal (listEvents items) (listEvents (relabelList items supply).1)
  | [], _, _ => .nil
  | item :: items, supply, h => by
    obtain ⟨hitem, hitems⟩ := (renames_relabel item supply).outerNames_split
      (nested_events _) (nested_events _) h
    exact List.rel_append (keepsGlobal_relabel item supply hitem)
      (keepsGlobal_relabelList items _ hitems)

theorem keepsGlobal_relabelBranches : (b : Branches) → (supply : List String) →
    outerNames 0 (branchEvents (relabelBranches b supply).1) = outerNames 0 (branchEvents b) →
    List.Forall₂ KeepsGlobal (branchEvents b) (branchEvents (relabelBranches b supply).1)
  | .done, _, _ => .nil
  | .otherwise body, supply, h => keepsGlobal_relabelList body supply h
  | .elif condition body rest, supply, h => by
    obtain ⟨hbody, hrest⟩ := (renames_relabelList body supply).outerNames_split
      (nested_listEvents _) (nested_listEvents _) h
    exact .cons (fun hlocal => by cases hlocal)
      (List.rel_append (keepsGlobal_relabelList body supply hbody)
        (keepsGlobal_relabelBranches rest _ hrest))

end

end Item

/-- Where the `outerNames` stay, so do all declarations of globals, and with them the texts that
renaming groups by. -/
theorem Shader.keepsGlobal_withNames {shader : Shader} {names : List String}
    (h : outerNames 0 (shader.withNames names).events = outerNames 0 shader.events) :
    List.Forall₂ KeepsGlobal shader.events (shader.withNames names).events :=
  Item.keepsGlobal_relabelList shader.items names h

end ShaderMinifier
