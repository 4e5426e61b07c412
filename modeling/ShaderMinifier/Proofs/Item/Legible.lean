import ShaderMinifier.Proofs.RoundTrip
import ShaderMinifier.Proofs.Site.Nesting

/-
  The text of a declaration tells which variable it declares, in every shader that was read from a
  text: the declaration alone, written as a shader of its own, is read back from that text.
-/

namespace ShaderMinifier

namespace Shader

/-- Globals that are declared by one text (`Statement.emit`) have one name. The text is the
`signature` by which renaming groups them. -/
def Legible (shader : Shader) : Prop :=
  ∀ type d name type' d' name', ⟨.declared .topLevel type d, name⟩ ∈ shader.sites →
    ⟨.declared .topLevel type' d', name'⟩ ∈ shader.sites →
    (Statement.declaration ⟨type, [d]⟩).emit = (Statement.declaration ⟨type', [d']⟩).emit →
    name = name'

end Shader

/-! ## More room -/

section Room

variable {room room' : Nat} {stage : Stage} {placement : Placement}

theorem Expr.SizeFits.mono {size : Option Expr} (h : Expr.SizeFits room size)
    (hroom : room ≤ room') : Expr.SizeFits room' size :=
  fun e he => ⟨(h e he).1, (h e he).2.trans hroom⟩

theorem TypeSpecifier.Fits.mono {t : TypeSpecifier} (h : t.Fits room) (hroom : room ≤ room') :
    t.Fits room' := by
  cases t with
  | named name => exact h
  | struct spec =>
    have hspec : spec.Fits room := h
    refine ⟨hspec.name, hspec.nonempty, fun m hm => ?_⟩
    obtain ⟨htype, hnonempty, hdeclarators⟩ := hspec.members m hm
    refine ⟨htype, hnonempty, fun d hd => ?_⟩
    exact ⟨(hdeclarators d hd).name, (hdeclarators d hd).size.mono hroom⟩

theorem Declarator.Fits.mono {d : Declarator} (h : d.Fits room) (hroom : room ≤ room') :
    d.Fits room' where
  name := h.name
  array := by
    intro a ha
    have hfits := h.array a ha
    cases a with
    | unsized => exact hfits
    | sized size => exact ⟨hfits.1, hfits.2.trans hroom⟩
  initializer := fun e he => ⟨(h.initializer e he).1, (h.initializer e he).2.trans hroom⟩

theorem Declaration.Fits.single {decl : Declaration} (h : decl.Fits room stage placement)
    {d : Declarator} (hd : d ∈ decl.declarators) (hroom : room ≤ room') :
    Declaration.Fits room' stage placement ⟨decl.type, [d]⟩ where
  type := h.type.mono hroom
  declarators := by simpa using (h.declarators d hd).mono hroom
  bare := fun hnil => by cases hnil
  allowed := by
    have hallowed := Declaration.fault?_eq_none.1 h.allowed
    rw [Declaration.fault?_eq_none]
    exact ⟨fun _ => hallowed.notVoid (List.ne_nil_of_mem hd), hallowed.unlinkedLocal,
      hallowed.attributeType, fun hq => by simpa using hallowed.plainAttribute hq d hd⟩

end Room

/-! ## Where globals are declared -/

/-- The event declares no global, so it says nothing about a `signature`. -/
def Event.isLocal : Event → Bool
  | site ⟨.declared .topLevel _ _, _⟩ => false
  | _ => true

theorem Event.Inner.isLocal {es : List Event} (h : Inner es) : ∀ e ∈ es, e.isLocal = true := by
  intro e he
  have hinner := h e he
  cases e with
  | site s =>
    obtain ⟨role, name⟩ := s
    cases role with
    | declared placement _ _ =>
      cases placement with
      | topLevel => cases hinner
      | inBody => rfl
    | type | field | function _ | parameter | use | callee _ => rfl
  | directive _ | conditional _ _ | elif _ | enter _ | leave => rfl

theorem Event.isLocal_inScope {kind : ScopeKind} {es : List Event}
    (h : ∀ e ∈ es, e.isLocal = true) : ∀ e ∈ Event.inScope kind es, e.isLocal = true := by
  rw [Event.inScope, List.cons_append, List.forall_mem_cons, List.forall_mem_append]
  exact ⟨rfl, h, by simp [Event.isLocal]⟩

namespace Item

variable {stage : Stage}

theorem isLocal_prototype (signature : Prototype) :
    ∀ e ∈ (prototype signature).events, e.isLocal = true := by
  rw [events, List.forall_mem_append]
  exact ⟨signature.inner_headEvents.isLocal,
    Event.isLocal_inScope signature.inner_paramEvents.isLocal⟩

theorem isLocal_function (signature : Prototype) (body : List Statement) :
    ∀ e ∈ (function signature body).events, e.isLocal = true := by
  rw [events, List.forall_mem_append]
  exact ⟨signature.inner_headEvents.isLocal, Event.isLocal_inScope
    (signature.inner_paramEvents.append (Statement.inner_listEvents body)).isLocal⟩

/-- If the event declares a global, a declaration of that variable alone `Fits` and is of this
name. -/
def GlobalFits (stage : Stage) (room : Nat) (e : Event) : Prop :=
  ∀ type d name, e = .site ⟨.declared .topLevel type d, name⟩ →
    d.name = name ∧ Declaration.Fits room stage .topLevel ⟨type, [d]⟩

theorem globalFits_of_isLocal {room : Nat} {es : List Event} (h : ∀ e ∈ es, e.isLocal = true) :
    ∀ e ∈ es, GlobalFits stage room e := by
  rintro e he type d name rfl
  exact absurd (h _ he) Bool.false_ne_true

theorem globalFits_declaration {room room' : Nat} {decl : Declaration}
    (h : decl.Fits room stage .topLevel) (hroom : room ≤ room') :
    ∀ e ∈ decl.events .topLevel, GlobalFits stage room' e := by
  have hplain : ∀ {es : List Event}, (∀ e ∈ es, e.isPlain = true) →
      ∀ e ∈ es, GlobalFits stage room' e :=
    fun hes => globalFits_of_isLocal (Event.Inner.ofPlain hes).isLocal
  rw [Declaration.events, List.forall_mem_append, List.forall_mem_flatMap]
  refine ⟨hplain decl.type.specifier.isPlain_events, fun d hd => ?_⟩
  rw [Declarator.events, List.forall_mem_append, List.forall_mem_append]
  refine ⟨⟨hplain (ArraySize.isPlain_events d.array),
    hplain (Expr.isPlain_optionalEvents d.initializer)⟩, ?_⟩
  rw [List.forall_mem_singleton]
  rintro type d' name heq
  cases heq
  exact ⟨rfl, h.single hd hroom⟩

mutual

theorem globalFits_events {room room' : Nat} : (i : Item) → i.Fits stage room → room ≤ room' →
    ∀ e ∈ i.events, GlobalFits stage room' e
  | directive _, _, _ => globalFits_of_isLocal (by simp [events, Event.isLocal])
  | conditional _ _ body rest, h, hroom => by
    rw [Fits] at h
    have hless : room - 1 ≤ room' := by omega
    rw [events, List.cons_append, List.forall_mem_cons, List.forall_mem_append]
    exact ⟨fun _ _ _ heq => Event.noConfusion heq, globalFits_listEvents body h.2.2.1 hless,
      globalFits_branchEvents rest h.2.2.2 hless⟩
  | precision _ _, _, _ =>
    globalFits_of_isLocal (by simp [events, Event.name, Event.isLocal])
  | invariant _, _, _ => globalFits_of_isLocal (by simp [events, Event.name, Event.isLocal])
  | declaration decl, h, hroom => globalFits_declaration h hroom
  | prototype signature, _, _ => globalFits_of_isLocal (isLocal_prototype signature)
  | function signature body, _, _ => globalFits_of_isLocal (isLocal_function signature body)

theorem globalFits_listEvents {room room' : Nat} : (items : List Item) →
    AllFit stage items room → room ≤ room' → ∀ e ∈ listEvents items, GlobalFits stage room' e
  | [], _, _ => by simp [listEvents]
  | item :: items, h, hroom => by
    rw [AllFit] at h
    rw [listEvents, List.forall_mem_append]
    exact ⟨globalFits_events item h.1 hroom, globalFits_listEvents items h.2 hroom⟩

theorem globalFits_branchEvents {room room' : Nat} : (b : Branches) →
    BranchesFit stage b room → room ≤ room' → ∀ e ∈ branchEvents b, GlobalFits stage room' e
  | .done, _, _ => by simp [branchEvents]
  | .otherwise body, h, hroom => globalFits_listEvents body h hroom
  | .elif _ body rest, h, hroom => by
    rw [BranchesFit] at h
    rw [branchEvents, List.cons_append, List.forall_mem_cons, List.forall_mem_append]
    exact ⟨fun _ _ _ heq => Event.noConfusion heq, globalFits_listEvents body h.2.1 hroom,
      globalFits_branchEvents rest h.2.2 hroom⟩

end

end Item

/-! ## Reading a declaration back -/

theorem Declaration.parse_emit {stage : Stage} {decl : Declaration}
    (h : decl.Fits Parser.maxNesting stage .topLevel) :
    Shader.parse (Statement.declaration decl).emit stage = .ok ⟨[.declaration decl]⟩ := by
  have hfits : Item.AllFit stage (Shader.mk [.declaration decl]).items Parser.maxNesting :=
    ⟨h, trivial⟩
  have hlines : ∀ e ∈ (Shader.mk [.declaration decl]).events, e.EndsLine := by
    intro e he text htext
    have hmem : e ∈ decl.events .topLevel := by
      simpa [Shader.events, Item.listEvents, Item.events] using he
    rw [decl.unread_events .topLevel e hmem] at htext
    cases htext
  have hemit : (Statement.declaration decl).emit =
      layout (Shader.mk [.declaration decl]).pieces := by
    rw [Shader.pieces, Item.listPieces, Item.listPieces, List.append_nil]
    rfl
  rw [hemit]
  exact Shader.parse_layout hfits hlines

namespace Shader

variable {shader : Shader} {stage : Stage}

theorem legible_of_allFit (h : Item.AllFit stage shader.items Parser.maxNesting) :
    shader.Legible := by
  intro type d name type' d' name' hsite hsite' htext
  have hfits : ∀ type d name, ⟨.declared .topLevel type d, name⟩ ∈ shader.sites →
      d.name = name ∧ Declaration.Fits Parser.maxNesting stage .topLevel ⟨type, [d]⟩ := by
    intro type d name hsite
    obtain ⟨e, he, hrole⟩ := List.mem_filterMap.1 hsite
    cases e with
    | site s =>
      obtain rfl := Option.some.inj hrole
      exact Item.globalFits_listEvents shader.items h le_rfl _ he type d name rfl
    | directive _ | conditional _ _ | elif _ | enter _ | leave => cases hrole
  obtain ⟨rfl, hd⟩ := hfits type d name hsite
  obtain ⟨rfl, hd'⟩ := hfits type' d' name' hsite'
  have hread := Declaration.parse_emit hd
  rw [htext, Declaration.parse_emit hd'] at hread
  cases hread
  rfl

theorem legible_of_parse {source : String} (h : Shader.parse source stage = .ok shader) :
    shader.Legible :=
  legible_of_allFit (Parser.yields_shader _ _ _ (Parser.run_eq_ok.1 h))

end Shader

end ShaderMinifier
