import ShaderMinifier.ShortName
import ShaderMinifier.Variable.Group
import ShaderMinifier.Variable.Rename

/-
  Short names for variables. Groups are served in the order of `Group.before`; each gets the
  first name that no group served before it has at a place where both are visible, and that is
  not used otherwise in a stage where it is visible. A group with a member that the preprocessor
  can see keeps its names.
-/

namespace ShaderMinifier

namespace BindingTable

/-- The words that the preprocessor can see in a stage, or none if nothing is known of the stage
(`stage?`). -/
def directiveWords (table : BindingTable) (stage : Stage) : List String :=
  ((table.stage? stage).map StageBindings.directiveWords).getD []

/-- Names in use in a stage that no binding accounts for, as `Resolver.addFreeName` noted them. -/
def freeNames (table : BindingTable) (stage : Stage) : List String :=
  ((table.stage? stage).map StageBindings.freeNames).getD []

/-- The bindings of a group, looked up by their indexes among those of the table. -/
def members (table : BindingTable) (g : Group) : List Binding :=
  g.members.filterMap fun id => table.bindings[id]?

/-- Whether the preprocessor can see a member of the group, in the member's own stage. Then the
whole group keeps its names. -/
def isPinned (table : BindingTable) (g : Group) : Bool :=
  (table.members g).any fun b => (table.directiveWords b.stage).contains b.name

/-- The groups that keep their names. Their members are in `reservedNames`, so nobody takes these
names from them. -/
def pinnedGroups (table : BindingTable) : List Group := table.groups.filter table.isPinned

/-- The groups that get a name, in the order in which they are served: `Group.before`, over all
groups without `isPinned`. -/
def servedGroups (table : BindingTable) : List Group :=
  Sorting.sort Group.before (table.groups.filter fun g => !table.isPinned g)

/-- The names that no group may get in a stage: free names, words of directives, and the names of
the `pinnedGroups` there. -/
def reservedNames (table : BindingTable) (stage : Stage) : List String :=
  (table.freeNames stage ++ table.directiveWords stage ++
    ((table.pinnedGroups.flatMap table.members).filter fun b => b.stage = stage).map
      Binding.name).eraseDups

/-- The names that no group may get, each with the stage where it is in use; `reservedFor` picks
those that matter in a slot. -/
def reserved (table : BindingTable) : List (Stage × String) :=
  Stage.all.flatMap fun stage => (table.reservedNames stage).map fun name => (stage, name)

end BindingTable

/-- Names that were given to groups, the latest first, as `serve` builds the list. -/
abbrev Given : Type := List (Group × String)

/-- The reserved names that a group in this slot may not get: those of the stages in which its name
is visible (`Slot.isIn`). -/
def reservedFor (reserved : List (Stage × String)) (slot : Slot) : List String :=
  (reserved.filter fun entry => slot.isIn entry.1).map Prod.snd

namespace Given

/-- The names given so far that a group in this slot may not get: those of groups whose slot `meets`
it. -/
def blocking (given : Given) (slot : Slot) : List String :=
  (given.filter fun entry => slot.meets entry.1.slot).map Prod.snd

end Given

/-- Serves groups in order, where `given` holds what was given before. Each gets the first name that
is neither reserved nor blocking (`ShortName.firstFree`). -/
def serve (reserved : List (Stage × String)) (given : Given) : List Group → Given
  | [] => given
  | g :: groups =>
    let name := ShortName.firstFree (reservedFor reserved g.slot ++ given.blocking g.slot)
    serve reserved ((g, name) :: given) groups

namespace BindingTable

/-- The name of each group that gets one, in the order in which they are served (`servedGroups`). -/
def allocation (table : BindingTable) : Given :=
  (serve table.reserved [] table.servedGroups).reverse

/-- The new name of a binding, that of the group with this member. A binding of a pinned group has
none. -/
def newName? (allocation : Given) (id : Nat) : Option String :=
  (allocation.find? fun entry => entry.1.members.contains id).map Prod.snd

/-- The new name of each binding by its index; `none` keeps the old one. -/
def newNames (table : BindingTable) : NewNames :=
  let allocation := table.allocation
  (List.range table.bindings.length).map (newName? allocation)

/-- What is told about the names that stay, those of the members of `pinnedGroups`. -/
def keptEntries (table : BindingTable) : List Log.Entry :=
  (table.pinnedGroups.flatMap table.members).map fun b => .keeping b.stage b.name

/-- What is told about the names that change, group by group in the order of `allocation`. -/
def renameEntries (table : BindingTable) : List Log.Entry :=
  table.allocation.flatMap fun entry =>
    (table.members entry.1).map fun b => .renamed b.stage b.extent b.name entry.2

end BindingTable

end ShaderMinifier
