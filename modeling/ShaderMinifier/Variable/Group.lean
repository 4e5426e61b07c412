import ShaderMinifier.Variable.Table

/-
  Variables that get one name together, and which groups may not have the same name. Globals on
  the link boundary are grouped by name; globals that both stages declare in the same way are one
  group; every other variable is a group of its own.
-/

namespace ShaderMinifier

/-- Where the name of a group is visible. `meets` says which slots may not hold the same name. -/
inductive Slot where
  /-- In both stages: the slot of linked globals and of those that both stages declare alike. It
  meets every other slot. -/
  | shared
  | global (stage : Stage)
  | inFunction (stage : Stage) (index : Nat)
deriving DecidableEq

namespace Slot

/-- The slot's place in the order in which slots are served: shared names first, then globals, then
locals, each in the order of stages and functions. -/
def rank : Slot → Nat × Nat × Nat
  | shared => (0, 0, 0)
  | global .vertex => (1, 0, 0)
  | global .fragment => (1, 1, 0)
  | inFunction .vertex index => (2, 0, index)
  | inFunction .fragment index => (2, 1, index)

/-- Whether the slot comes earlier, by the lexicographic order of `rank`. -/
def before (a b : Slot) : Bool :=
  decide (a.rank.1 < b.rank.1) || (a.rank.1 == b.rank.1 &&
    (decide (a.rank.2.1 < b.rank.2.1) || (a.rank.2.1 == b.rank.2.1 &&
      decide (a.rank.2.2 < b.rank.2.2))))

/-- Whether a name in this slot is visible in the stage, for the names that are reserved by stage
(`reservedFor`). -/
def isIn (stage : Stage) : Slot → Bool
  | shared => true
  | global own => own = stage
  | inFunction own _ => own = stage

/-- Whether names of the two slots can be visible at one place. Locals of different functions, and
names of different stages that are not `shared`, never are. -/
def meets : Slot → Slot → Bool
  | shared, _ => true
  | _, shared => true
  | global a, global b => a = b
  | global a, inFunction b _ => a = b
  | inFunction a _, global b => a = b
  | inFunction a i, inFunction b j => a = b && i = j

end Slot

/-- Variables that get one name. `BindingTable.groups` puts every binding into exactly one of
them. -/
structure Group where
  slot : Slot
  /-- The bindings of the group by their indexes, in increasing order. There is at least one, see
  `first`. -/
  members : List Nat
  /-- The number of sites of all members, that is how often the new name is written; `before` serves
  heavy groups first. -/
  weight : Nat
deriving DecidableEq

namespace Group

/-- The index of the first member, by which `before` orders groups of one weight. -/
def first (g : Group) : Nat := g.members.headD 0

/-- Whether the group is served earlier: by slot, in a slot the heavier group first, and groups of
one weight in the order of their `first` members. -/
def before (a b : Group) : Bool :=
  a.slot.before b.slot || (a.slot == b.slot &&
    (decide (b.weight < a.weight) || (a.weight == b.weight && decide (a.first < b.first))))

end Group

/-- A binding with its index, as `List.zipIdx` pairs them. -/
abbrev IndexedBinding : Type := Binding × Nat

namespace IndexedBinding

/-- A group of one, with the sites of its binding as `weight`. -/
def alone (slot : Slot) (b : IndexedBinding) : Group := ⟨slot, [b.2], b.1.sites⟩

/-- Several bindings as one group that both stages see, in the slot `shared`. Its weight is the sum
of their sites. -/
def together (members : List IndexedBinding) : Group :=
  ⟨.shared, members.map Prod.snd, members.foldr (fun b n => b.1.sites + n) 0⟩

/-- The group of a variable that cannot be shared: a local, or a global that is neither linked nor
always declared in the same way (`signature`). -/
def unsharedGroup? (b : IndexedBinding) : Option Group :=
  match b.1.extent with
  | .inFunction index => some (alone (.inFunction b.1.stage index) b)
  | .global =>
    if b.1.linked || b.1.signature.isSome then none else some (alone (.global b.1.stage) b)

/-- The name under which a global is linked. Globals of one link name are one group in any case. -/
def linkName? (b : IndexedBinding) : Option String :=
  if b.1.extent = .global && b.1.linked then some b.1.name else none

/-- The text that a global which is not linked is always declared by, the `signature` of its
binding. -/
def ownSignature? (b : IndexedBinding) : Option String :=
  if b.1.extent = .global && !b.1.linked then b.1.signature else none

/-- The members of a list for which `key` has this value, in the order of the list. -/
def withKey (key : IndexedBinding → Option String) (value : String)
    (bindings : List IndexedBinding) : List IndexedBinding :=
  bindings.filter fun b => key b == some value

/-- Globals declared in the same way: one group, `together`, if both stages have one of them, else
each is a group of its own. -/
def signatureGroups (members : List IndexedBinding) : List Group :=
  if Stage.all.all fun stage => members.any fun b => b.1.stage = stage then [together members]
  else members.map fun b => alone (.global b.1.stage) b

end IndexedBinding

namespace BindingTable

open IndexedBinding

/-- The values of a key, each once, in order (`Sorting.distinctTexts`), so the groups do not depend
on how the bindings are listed. -/
def keys (key : IndexedBinding → Option String) (bindings : List IndexedBinding) : List String :=
  Sorting.distinctTexts (bindings.filterMap key)

/-- All groups of a table: those that cannot be shared (`unsharedGroup?`), then the linked ones by
name, then those declared in the same way by their text. -/
def groups (table : BindingTable) : List Group :=
  let bindings := table.bindings.zipIdx
  bindings.filterMap unsharedGroup? ++
    ((keys linkName? bindings).map fun name => together (withKey linkName? name bindings)) ++
    (keys ownSignature? bindings).flatMap fun text =>
      signatureGroups (withKey ownSignature? text bindings)

end BindingTable

end ShaderMinifier
