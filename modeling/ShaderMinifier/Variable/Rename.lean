import ShaderMinifier.Site.Relabel
import ShaderMinifier.Variable.Table

/-
  Giving the variables of a shader new names by the table of their bindings. The table is meant
  to be that of this very shader; with another one the names are put in place as far as they go,
  and the number of sites tells.
-/

namespace ShaderMinifier

/-- The new name of each binding by its index; `none` keeps the old one. -/
abbrev NewNames : Type := List (Option String)

namespace NewNames

/-- The new name of a binding. An index past the end of `names` has none. -/
def get (names : NewNames) (id : Nat) : Option String := (names[id]?).join

end NewNames

/-- The names at all sites, where the variable sites among them (`isVariable`) stand for these
bindings, in order. Any other site keeps its name and uses up none of `ids`. -/
def renamedSites (names : NewNames) : List Site → List (Option Nat) → List String
  | [], _ => []
  | site :: sites, ids =>
    if site.role.isVariable then
      ((ids.head?.join.bind names.get).getD site.name) :: renamedSites names sites ids.tail
    else site.name :: renamedSites names sites ids

namespace Shader

/-- The variable sites of a shader, as many as `Resolver` has noted in `StageBindings.sites`. -/
def variableSites (shader : Shader) : List Site :=
  shader.sites.filter fun site => site.role.isVariable

/-- The shader with the new names of its bindings at its variable sites, by `renamedSites`. -/
def renameVariables (shader : Shader) (ids : List (Option Nat)) (names : NewNames) :
    Shader :=
  shader.withNames (renamedSites names shader.sites ids)

/-- Whether the shader has as many variable sites as were resolved. Otherwise the table is that of
another shader and the error is `siteCount`. -/
def checkSites (shader : Shader) (ids : List (Option Nat)) : Except CompileError Unit :=
  if shader.variableSites.length = ids.length then .ok ()
  else .error (.siteCount shader.variableSites.length ids.length)

end Shader

end ShaderMinifier
